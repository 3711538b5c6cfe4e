import TraversalSql.Proofs.Supply
import TraversalSql.Sql.Dialect

/-!
Names are given once and need no quotes.  A request for a name has a base, and the supply counts the
names of each base, those of tables apart from those of columns.  A name is its base with a number,
and both can be read off it whatever the base looks like, so no two names of a sort are the same.
-/

namespace TraversalSql.Sql

/-- A name that needs no quotes: a small letter or an underscore, followed by small letters, digits
and underscores. -/
def PlainName (name : String) : Prop :=
  ∃ first rest, name.toList = first :: rest ∧ ('a' ≤ first ∧ first ≤ 'z' ∨ first = '_') ∧
    ∀ c ∈ rest, 'a' ≤ c ∧ c ≤ 'z' ∨ '0' ≤ c ∧ c ≤ '9' ∨ c = '_'

theorem isLower_iff {c : Char} : c.isLower ↔ 'a' ≤ c ∧ c ≤ 'z' := by
  simp [Char.isLower, Char.le_def]

theorem isDigit_iff {c : Char} : c.isDigit ↔ '0' ≤ c ∧ c ≤ '9' := by
  simp [Char.isDigit, Char.le_def]

theorem plainName_iff {name : String} : PlainName name ↔ Traits.isPlain name.toList := by
  unfold PlainName
  cases name.toList with
  | nil => simp [Traits.isPlain]
  | cons c rest =>
      simp [Traits.isPlain, Traits.isPlainChar, isLower_iff, isDigit_iff, or_assoc, and_comm]

theorem isPlainChar_aliasChar (c : Char) : Traits.isPlainChar (aliasChar c) := by
  unfold aliasChar
  simp only
  split
  · next h => exact h
  · rfl

theorem isPlainChar_of_mem_toString {number : Nat} {c : Char} (h : c ∈ (toString number).toList) :
    Traits.isPlainChar c := by
  rw [Nat.toString_eq_repr, Nat.toList_repr] at h
  have hdigit := Nat.isDigit_of_mem_toDigits (by decide) (by decide) h
  simp [Traits.isPlainChar, hdigit]

/-- A number does not spoil a plain base. -/
theorem isPlain_numbered {base : String} (h : Traits.isPlain base.toList) (number : Nat) :
    Traits.isPlain (numbered base number).toList := by
  rw [toList_numbered]
  cases hbase : base.toList with
  | nil => simp [hbase, Traits.isPlain] at h
  | cons c rest =>
      rw [hbase] at h
      simp only [Traits.isPlain, List.cons_append, List.all_append, List.all_cons,
        Bool.and_eq_true, List.all_eq_true] at h ⊢
      exact ⟨h.1, h.2, rfl, fun d hd => isPlainChar_of_mem_toString hd⟩

/-- The base of the aliases of a table is plain, whatever the table is called. -/
theorem isPlain_aliasBase (table : String) : Traits.isPlain (aliasBase table).toList := by
  have hchars : ∀ c ∈ (unqualified table.toList).map aliasChar, Traits.isPlainChar c := by
    intro c hc
    obtain ⟨d, -, rfl⟩ := List.mem_map.1 hc
    exact isPlainChar_aliasChar d
  unfold aliasBase
  split
  · rfl
  · next c rest hsame =>
    rw [hsame] at hchars
    obtain ⟨hfirst, hrest⟩ := List.forall_mem_cons.1 hchars
    have hrest := List.all_eq_true.2 hrest
    by_cases hdigit : c.isDigit
    · simp [hdigit, Traits.isPlain, Traits.isPlainChar, hrest]
    · simpa [hdigit, Traits.isPlain, Traits.isPlainChar, hrest] using hfirst

/-- A request for a name. -/
inductive NameRequest where
  /-- For an alias of a table. -/
  | table (name : String)
  | cte (kind : CteKind)
  /-- For a column that links a scope with a recursion. -/
  | link
  /-- For a column that links a scope with a fold. -/
  | foldLink
deriving DecidableEq, Repr

namespace NameRequest

def isTable : NameRequest → Bool
  | .table _ => true
  | .cte _ => true
  | .link => false
  | .foldLink => false

def base : NameRequest → String
  | .table name => aliasBase name
  | .cte kind => kind.base
  | .link => "__link"
  | .foldLink => "__fold_link"

theorem isPlain_base (request : NameRequest) : Traits.isPlain request.base.toList := by
  cases request with
  | table name => exact isPlain_aliasBase name
  | cte kind => cases kind <;> decide
  | link => decide
  | foldLink => decide

end NameRequest

namespace AliasSupply

def take (supply : AliasSupply) : NameRequest → String × AliasSupply
  | .table name => supply.nextAlias name
  | .cte kind => supply.nextCte kind
  | .link => supply.nextLink
  | .foldLink => supply.nextFoldLink

/-- The names that are given to requests one after the other, each with its request. -/
def given : AliasSupply → List NameRequest → List (NameRequest × String)
  | _, [] => []
  | supply, request :: requests =>
      (request, (supply.take request).1) :: (supply.take request).2.given requests

/-- The names for tables among those that are given to requests: aliases, and names of common table
expressions. -/
def tableNames (supply : AliasSupply) (requests : List NameRequest) : List String :=
  ((supply.given requests).filter fun entry => entry.1.isTable).map Prod.snd

/-- The names for columns among those that are given to requests. -/
def columnNames (supply : AliasSupply) (requests : List NameRequest) : List String :=
  ((supply.given requests).filter fun entry => !entry.1.isTable).map Prod.snd

/-- How many names of the sort of a request and with its base have been taken. -/
def count (supply : AliasSupply) : NameRequest → Nat
  | .table name => supply.taken (aliasBase name)
  | .cte kind => supply.taken kind.base
  | .link => supply.links
  | .foldLink => supply.foldLinks

theorem take_fst (supply : AliasSupply) (request : NameRequest) :
    (supply.take request).1 = numbered request.base (supply.count request + 1) := by
  cases request <;> rfl

/-- Tables share a counter if they share a base, and so do columns. -/
theorem count_congr (supply : AliasSupply) {request other : NameRequest}
    (hsort : request.isTable = other.isTable) (hbase : request.base = other.base) :
    supply.count request = supply.count other := by
  cases request <;> cases other <;> simp_all [count, NameRequest.isTable, NameRequest.base]

theorem count_take_self (supply : AliasSupply) (request : NameRequest) :
    (supply.take request).2.count request = supply.count request + 1 := by
  cases request with
  | table name => exact taken_next_self supply _
  | cte kind => exact taken_next_self supply _
  | link => rfl
  | foldLink => rfl

theorem before_take (supply : AliasSupply) (request : NameRequest) :
    supply.Before (supply.take request).2 := by
  cases request with
  | table name => exact before_next supply _
  | cte kind => exact before_next supply _
  | link => exact before_nextLink supply
  | foldLink => exact before_nextFoldLink supply

theorem Before.count_le {supply later : AliasSupply} (h : supply.Before later)
    (request : NameRequest) : supply.count request ≤ later.count request := by
  cases request with
  | table name => exact h.taken _
  | cte kind => exact h.taken _
  | link => exact h.links
  | foldLink => exact h.foldLinks

/-- A name that is given has the base of its request, and a number that was not reached before. -/
theorem exists_of_mem_given {supply : AliasSupply} {requests : List NameRequest}
    {request : NameRequest} {name : String} (h : (request, name) ∈ supply.given requests) :
    ∃ number, supply.count request < number ∧ name = numbered request.base number := by
  induction requests generalizing supply with
  | nil => exact absurd h List.not_mem_nil
  | cons first requests ih =>
      rcases List.mem_cons.1 h with hfirst | hlater
      · obtain ⟨rfl, rfl⟩ := Prod.mk.inj hfirst
        exact ⟨_, Nat.lt_succ_self _, take_fst supply request⟩
      · obtain ⟨number, hlt, hname⟩ := ih hlater
        exact ⟨number, Nat.lt_of_le_of_lt ((before_take supply first).count_le request) hlt, hname⟩

/-- Any two names of a sort that are given differ. -/
theorem pairwise_given (supply : AliasSupply) (requests : List NameRequest) :
    (supply.given requests).Pairwise fun first second =>
      first.1.isTable = second.1.isTable → first.2 ≠ second.2 := by
  induction requests generalizing supply with
  | nil => exact .nil
  | cons request requests ih =>
      refine List.pairwise_cons.2 ⟨fun later hlater hsort hsame => ?_, ih _⟩
      obtain ⟨number, hlt, hname⟩ := exists_of_mem_given hlater
      rw [take_fst, hname, numbered_inj] at hsame
      -- The later name would have the number that was taken first, and its counter is past that.
      rw [← count_congr _ hsort hsame.1, count_take_self] at hlt
      exact absurd hlt (by omega)

theorem nodup_filter_given (supply : AliasSupply) (requests : List NameRequest) (sort : Bool)
    {keep : NameRequest × String → Bool} (hkeep : ∀ entry, keep entry → entry.1.isTable = sort) :
    (((supply.given requests).filter keep).map Prod.snd).Nodup := by
  refine List.pairwise_map.2 ?_
  refine ((supply.pairwise_given requests).filter keep).imp_of_mem ?_
  intro first second hfirst hsecond hne
  exact hne ((hkeep first (List.mem_filter.1 hfirst).2).trans
    (hkeep second (List.mem_filter.1 hsecond).2).symm)

/-- Names never collide.  Whatever is asked for, and in whatever order, the aliases and the names of
common table expressions differ, the columns that link scopes differ, and all of them are plain, so
that no dialect quotes them. -/
theorem given_names_differ (supply : AliasSupply) (requests : List NameRequest) :
    (supply.tableNames requests).Nodup ∧ (supply.columnNames requests).Nodup ∧
      ∀ entry ∈ supply.given requests, PlainName entry.2 ∧
        ∀ dialect : Dialect, dialect.traits.quote entry.2 = entry.2 := by
  refine ⟨nodup_filter_given supply requests true fun _ h => h,
    nodup_filter_given supply requests false fun _ h => by simpa using h,
    fun (request, name) hentry => ?_⟩
  obtain ⟨number, -, rfl⟩ := exists_of_mem_given hentry
  have hplain := isPlain_numbered request.isPlain_base number
  exact ⟨plainName_iff.2 hplain, fun dialect => if_pos hplain⟩

-- A table that is called like a scope shares its counter, and a base may end like a number.
example :
    fresh.tableNames [.table "scope", .cte .scope, .link, .table "dbo.Scope", .table "scope_1",
        .table "2fa"] =
      ["scope_1", "scope_2", "scope_3", "scope_1_1", "t_2fa_1"] := by
  cbv

end AliasSupply

end TraversalSql.Sql
