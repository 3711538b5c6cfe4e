import TraversalSql.Emission.Error
import TraversalSql.Proofs.Outcome

/-!
The names that an emission takes.  A name is known by its base and its number, and the supply only
counts up, so names that are taken at different times differ: what is taken between two states of
the supply is taken once.
-/

namespace TraversalSql

namespace Sql

private theorem append_separator_inj {first second before after : List Char} {separator : Char}
    (hbefore : separator ∉ before) (hafter : separator ∉ after)
    (h : first ++ separator :: before = second ++ separator :: after) :
    first = second ∧ before = after := by
  induction first generalizing second with
  | nil =>
      cases second with
      | nil => exact ⟨rfl, (List.cons.inj h).2⟩
      | cons c second =>
          obtain ⟨rfl, hrest⟩ := List.cons.inj h
          exact absurd (hrest ▸ List.mem_append_right _ List.mem_cons_self) hbefore
  | cons c first ih =>
      cases second with
      | nil =>
          obtain ⟨rfl, hrest⟩ := List.cons.inj h
          exact absurd (hrest.symm ▸ List.mem_append_right _ List.mem_cons_self) hafter
      | cons d second =>
          obtain ⟨rfl, hrest⟩ := List.cons.inj h
          obtain ⟨rfl, hsame⟩ := ih hrest
          exact ⟨rfl, hsame⟩

theorem toList_numbered (base : String) (number : Nat) :
    (numbered base number).toList = base.toList ++ '_' :: (toString number).toList := by
  simp [numbered, String.toList_append]

/-- A numbered name determines its base and its number. -/
theorem numbered_inj {base other : String} {number count : Nat} :
    numbered base number = numbered other count ↔ base = other ∧ number = count := by
  refine ⟨fun h => ?_, fun ⟨hbase, hnumber⟩ => by rw [hbase, hnumber]⟩
  have hlist := congrArg String.toList h
  have hdigits : ∀ n : Nat, '_' ∉ (toString n).toList := by
    intro n hmem
    rw [Nat.toString_eq_repr, Nat.toList_repr] at hmem
    have := Nat.isDigit_of_mem_toDigits (by decide) (by decide) hmem
    exact absurd this (by decide)
  rw [toList_numbered, toList_numbered] at hlist
  obtain ⟨hbase, hnumber⟩ := append_separator_inj (hdigits _) (hdigits _) hlist
  refine ⟨String.toList_inj.1 hbase, ?_⟩
  have hvalue := congrArg (fun digits => Nat.ofDigitChars 10 digits 0) hnumber
  simpa [Nat.toString_eq_repr, Nat.toList_repr] using hvalue

namespace AliasSupply

/-- A supply comes before another one if none of its counters is higher. -/
structure Before (supply later : AliasSupply) : Prop where
  taken : ∀ base, supply.taken base ≤ later.taken base
  links : supply.links ≤ later.links
  foldLinks : supply.foldLinks ≤ later.foldLinks

theorem Before.refl (supply : AliasSupply) : supply.Before supply :=
  ⟨fun _ => Nat.le_refl _, Nat.le_refl _, Nat.le_refl _⟩

theorem Before.trans {supply later last : AliasSupply} (h : supply.Before later)
    (h' : later.Before last) : supply.Before last :=
  ⟨fun base => Nat.le_trans (h.taken base) (h'.taken base), Nat.le_trans h.links h'.links,
    Nat.le_trans h.foldLinks h'.foldLinks⟩

/-- A name that was taken between two states of the supply. -/
def Issued (supply later : AliasSupply) (name : String) : Prop :=
  ∃ base number, name = numbered base number ∧
    supply.taken base < number ∧ number ≤ later.taken base

theorem Issued.mono {earlier supply later last : AliasSupply} {name : String}
    (h : Issued supply later name) (hfirst : earlier.Before supply) (hlast : later.Before last) :
    Issued earlier last name := by
  obtain ⟨base, number, hname, hlt, hle⟩ := h
  exact ⟨base, number, hname, Nat.lt_of_le_of_lt (hfirst.taken base) hlt,
    Nat.le_trans hle (hlast.taken base)⟩

/-- Names that are taken one after the other differ. -/
theorem Issued.ne {supply later next last : AliasSupply} {name other : String}
    (h : Issued supply later name) (hother : Issued next last other) (hlater : later.Before next) :
    name ≠ other := by
  obtain ⟨base, number, rfl, -, hnumber⟩ := h
  obtain ⟨base', number', rfl, hlt, -⟩ := hother
  intro hsame
  obtain ⟨rfl, rfl⟩ := numbered_inj.1 hsame
  exact absurd (Nat.le_trans hnumber (hlater.taken base)) (Nat.not_le.2 hlt)

theorem before_next (supply : AliasSupply) (base : String) :
    supply.Before (supply.next base).2 := by
  refine ⟨fun other => ?_, Nat.le_refl _, Nat.le_refl _⟩
  by_cases h : other = base
  · subst h
    rw [taken_next_self]
    exact Nat.le_succ _
  · exact Nat.le_of_eq (taken_next_of_ne supply h).symm

theorem before_nextLink (supply : AliasSupply) : supply.Before supply.nextLink.2 :=
  ⟨fun _ => Nat.le_refl _, Nat.le_succ _, Nat.le_refl _⟩

theorem before_nextFoldLink (supply : AliasSupply) : supply.Before supply.nextFoldLink.2 :=
  ⟨fun _ => Nat.le_refl _, Nat.le_refl _, Nat.le_succ _⟩

theorem issued_next (supply : AliasSupply) (base : String) :
    Issued supply (supply.next base).2 (supply.next base).1 :=
  ⟨base, supply.taken base + 1, rfl, Nat.lt_succ_self _,
    Nat.le_of_eq (taken_next_self supply base).symm⟩

/-- Names that are taken between two states of the supply, each of them once. -/
structure Takes (supply : AliasSupply) (names : List String) (later : AliasSupply) : Prop where
  before : supply.Before later
  nodup : names.Nodup
  issued : ∀ name ∈ names, Issued supply later name

namespace Takes

variable {supply later last : AliasSupply} {names : List String}

theorem of_before (h : supply.Before later) : supply.Takes [] later :=
  ⟨h, .nil, fun _ hname => absurd hname List.not_mem_nil⟩

theorem next (supply : AliasSupply) (base : String) :
    supply.Takes [(supply.next base).1] (supply.next base).2 := by
  refine ⟨before_next _ _, List.nodup_singleton _, fun name hname => ?_⟩
  rw [List.mem_singleton.1 hname]
  exact issued_next _ _

theorem nextAlias (supply : AliasSupply) (table : String) :
    supply.Takes [(supply.nextAlias table).1] (supply.nextAlias table).2 :=
  next supply _

/-- Names that are taken one after the other are all taken once. -/
theorem append {others : List String} (h : supply.Takes names later)
    (hothers : later.Takes others last) : supply.Takes (names ++ others) last := by
  refine ⟨h.before.trans hothers.before, ?_, fun name hname => ?_⟩
  · rw [List.nodup_append']
    refine ⟨h.nodup, hothers.nodup, fun name hfirst hsecond => ?_⟩
    exact (h.issued name hfirst).ne (hothers.issued name hsecond) (.refl _) rfl
  · rcases List.mem_append.1 hname with hname | hname
    · exact (h.issued name hname).mono (.refl _) hothers.before
    · exact (hothers.issued name hname).mono h.before (.refl _)

theorem mono {earlier : AliasSupply} (h : supply.Takes names later)
    (hfirst : earlier.Before supply) (hlast : later.Before last) : earlier.Takes names last :=
  ⟨(hfirst.trans h.before).trans hlast, h.nodup,
    fun name hname => (h.issued name hname).mono hfirst hlast⟩

theorem subperm {fewer : List String} (h : supply.Takes names later)
    (hfewer : fewer.Subperm names) : supply.Takes fewer later := by
  obtain ⟨l, hperm, hsublist⟩ := hfewer
  exact ⟨h.before, hperm.nodup_iff.1 (hsublist.nodup h.nodup),
    fun name hname => h.issued name (hsublist.subset (hperm.mem_iff.2 hname))⟩

theorem perm {others : List String} (h : supply.Takes names later) (hothers : others.Perm names) :
    supply.Takes others later :=
  h.subperm hothers.subperm

/-- A name that was taken before differs from all names that are taken. -/
theorem nodup_cons {earlier : AliasSupply} {name : String} (h : supply.Takes names later)
    (hname : Issued earlier supply name) : (name :: names).Nodup :=
  List.nodup_cons.2 ⟨fun hmem => hname.ne (h.issued name hmem) (.refl _) rfl, h.nodup⟩

end Takes

/-- Names that are taken between two states of the supply, each of them once, and no others. -/
structure Draws (supply : AliasSupply) (names : List String) (later : AliasSupply) : Prop
    extends supply.Takes names later where
  complete : ∀ name, Issued supply later name → name ∈ names

namespace Draws

variable {supply later last : AliasSupply} {names : List String}

theorem nil (supply : AliasSupply) : supply.Draws [] supply := by
  refine ⟨.of_before (.refl _), fun name hname => ?_⟩
  obtain ⟨base, number, -, hlt, hle⟩ := hname
  exact absurd hle (Nat.not_le.2 hlt)

theorem next (supply : AliasSupply) (base : String) :
    supply.Draws [(supply.next base).1] (supply.next base).2 := by
  refine ⟨.next supply base, fun name hname => ?_⟩
  obtain ⟨other, number, rfl, hlt, hle⟩ := hname
  by_cases hother : other = base
  · subst hother
    rw [taken_next_self] at hle
    obtain rfl : number = supply.taken other + 1 := by omega
    exact List.mem_singleton.2 rfl
  · rw [taken_next_of_ne supply hother] at hle
    exact absurd hle (Nat.not_le.2 hlt)

theorem nextAlias (supply : AliasSupply) (table : String) :
    supply.Draws [(supply.nextAlias table).1] (supply.nextAlias table).2 :=
  next supply _

theorem nextCte (supply : AliasSupply) (kind : CteKind) :
    supply.Draws [(supply.nextCte kind).1] (supply.nextCte kind).2 :=
  next supply _

theorem append {others : List String} (h : supply.Draws names later)
    (hothers : later.Draws others last) : supply.Draws (names ++ others) last := by
  refine ⟨h.toTakes.append hothers.toTakes, fun name hname => List.mem_append.2 ?_⟩
  obtain ⟨base, number, hsame, hlt, hle⟩ := hname
  by_cases hnumber : number ≤ later.taken base
  · exact .inl (h.complete name ⟨base, number, hsame, hlt, hnumber⟩)
  · exact .inr (hothers.complete name ⟨base, number, hsame, Nat.not_le.1 hnumber, hle⟩)

theorem perm {others : List String} (h : supply.Draws names later) (hothers : others.Perm names) :
    supply.Draws others later :=
  ⟨h.toTakes.perm hothers, fun name hname => hothers.mem_iff.2 (h.complete name hname)⟩

/-- Columns that link table expressions have counters of their own. -/
theorem of_taken_eq (h : supply.Draws names later) (hbefore : later.Before last)
    (hsame : ∀ base, last.taken base = later.taken base) : supply.Draws names last := by
  refine ⟨h.toTakes.mono (.refl _) hbefore, fun name hname => h.complete name ?_⟩
  obtain ⟨base, number, hnumbered, hlt, hle⟩ := hname
  exact ⟨base, number, hnumbered, hlt, hsame base ▸ hle⟩

end Draws

end AliasSupply

end Sql

namespace Emit

variable {α β : Type} {supply later : Sql.AliasSupply}

theorem bind_eq_ok_iff {x : Emit α} {f : α → Emit β} {b : β} :
    (x >>= f) supply = .ok (b, later) ↔
      ∃ a between, x supply = .ok (a, between) ∧ f a between = .ok (b, later) := by
  change ((x supply) >>= fun r => f r.1 r.2) = _ ↔ _
  rw [Outcome.bind_eq_ok_iff, Prod.exists]

theorem pure_eq_ok_iff {a b : α} :
    (pure a : Emit α) supply = .ok (b, later) ↔ a = b ∧ supply = later := by
  change (Except.ok (a, supply) : Except EmitError _) = _ ↔ _
  simp

theorem lift_eq_ok_iff {x : Except EmitError α} {a : α} :
    (liftM x : Emit α) supply = .ok (a, later) ↔ x = .ok a ∧ supply = later := by
  change (x >>= fun a => pure (a, supply)) = _ ↔ _
  cases x <;> simp [pure, Except.pure, bind, Except.bind]

theorem throw_eq_ok_iff {e : EmitError} {r : α × Sql.AliasSupply} :
    (throw e : Emit α) supply = .ok r ↔ False := by
  change (Except.error e : Except EmitError _) = _ ↔ _
  simp

theorem ofSchema_eq_ok_iff {x : Except SchemaError α} {a : α} :
    ofSchema x = .ok a ↔ x = .ok a := by
  cases x <;> simp [ofSchema]

theorem takeAlias_eq_ok_iff {table name : String} :
    takeAlias table supply = .ok (name, later) ↔
      name = (supply.nextAlias table).1 ∧ later = (supply.nextAlias table).2 := by
  simp [takeAlias, Prod.ext_iff, eq_comm]

end Emit

end TraversalSql
