import Mathlib
import TraversalSql.Sql.Printer

/-!
Names and texts stay within their quotes.  A reader goes up to the first closing quote that is not
doubled, and knows no other escapes.  What is written for a name or for a text constant is read as
just that, whatever characters it is made of, and the reader stops where it ends.  So no two names
are written alike.
-/

namespace TraversalSql.Sql

/-- Read up to a quote, and give what follows it.  A doubled quote stands for itself. -/
def readDelimited (quote : Char) : List Char → Option (List Char × List Char)
  | [] => none
  | c :: rest =>
      if c = quote then
        match rest with
        | [] => some ([], [])
        | d :: later =>
            if d = quote then (readDelimited quote later).map (Prod.map (quote :: ·) id)
            else some ([], d :: later)
      else (readDelimited quote rest).map (Prod.map (c :: ·) id)

/-- Read a name: what is delimited by quotes, or the longest run of characters of names. -/
def readName (traits : Traits) (isNameChar : Char → Bool) :
    List Char → Option (List Char × List Char)
  | [] => none
  | c :: rest =>
      if c = traits.quoteOpen then readDelimited traits.quoteClose rest
      else if isNameChar c then
        some ((c :: rest).takeWhile isNameChar, (c :: rest).dropWhile isNameChar)
      else none

/-- Read a text constant. -/
def readText : List Char → Option (List Char × List Char)
  | [] => none
  | c :: rest => if c = '\'' then readDelimited '\'' rest else none

theorem readDelimited_cons_of_ne {quote c : Char} (h : c ≠ quote) (rest : List Char) :
    readDelimited quote (c :: rest) = (readDelimited quote rest).map (Prod.map (c :: ·) id) := by
  cases rest with
  | nil => simp [readDelimited, h]
  | cons d rest => simp [readDelimited, h]

theorem readDelimited_pair (quote : Char) (rest : List Char) :
    readDelimited quote (quote :: quote :: rest) =
      (readDelimited quote rest).map (Prod.map (quote :: ·) id) := by
  simp [readDelimited]

/-- A quote ends what is read, unless another one follows. -/
theorem readDelimited_quote {quote : Char} {rest : List Char} (h : rest.head? ≠ some quote) :
    readDelimited quote (quote :: rest) = some ([], rest) := by
  cases rest with
  | nil => simp [readDelimited]
  | cons d rest => simp [readDelimited, show d ≠ quote by simpa using h]

namespace Traits

theorem doubled_cons (quote c : Char) (cs : List Char) :
    doubled quote (c :: cs) = (if c = quote then [c, c] else [c]) ++ doubled quote cs :=
  List.flatMap_cons

theorem length_le_length_doubled (quote : Char) (cs : List Char) :
    cs.length ≤ (doubled quote cs).length := by
  induction cs with
  | nil => exact Nat.zero_le _
  | cons c cs ih =>
      rw [doubled_cons, List.length_append, List.length_cons]
      split
      · rw [List.length_cons]; omega
      · rw [List.length_singleton]; omega

end Traits

/-- What is delimited is read up to its closing quote, whatever it is made of. -/
theorem readDelimited_doubled {quote : Char} (cs : List Char) {rest : List Char}
    (h : rest.head? ≠ some quote) :
    readDelimited quote (Traits.doubled quote cs ++ quote :: rest) = some (cs, rest) := by
  induction cs with
  | nil => exact readDelimited_quote h
  | cons c cs ih =>
      by_cases hc : c = quote
      · rw [Traits.doubled_cons, if_pos hc, hc, List.append_assoc, List.cons_append,
          List.singleton_append, readDelimited_pair, ih]
        rfl
      · rw [Traits.doubled_cons, if_neg hc, List.append_assoc, List.singleton_append,
          readDelimited_cons_of_ne hc, ih]
        rfl

namespace Traits

variable {traits : Traits} {name : String}

/-- A name is written as it is exactly if it is plain. -/
theorem quote_eq_self_iff : traits.quote name = name ↔ isPlain name.toList := by
  refine ⟨fun h => Decidable.byContradiction fun hplain => ?_, fun h => if_pos h⟩
  rw [quote, if_neg hplain] at h
  have hlength := congrArg (fun text => text.toList.length) h
  have hdoubled := length_le_length_doubled traits.quoteClose name.toList
  simp only [String.toList_ofList, List.length_cons, List.length_append] at hlength
  omega

theorem toList_quote_of_not_plain (h : ¬ isPlain name.toList) :
    (traits.quote name).toList =
      traits.quoteOpen :: (doubled traits.quoteClose name.toList ++ [traits.quoteClose]) := by
  rw [quote, if_neg h, String.toList_ofList]

/-- A plain name is a run of plain characters, and not an empty one. -/
theorem exists_cons_of_isPlain {cs : List Char} (h : isPlain cs) :
    ∃ c rest, cs = c :: rest ∧ ∀ d ∈ cs, isPlainChar d := by
  cases cs with
  | nil => exact absurd h Bool.false_ne_true
  | cons c rest =>
      obtain ⟨hfirst, hrest⟩ := (Bool.and_eq_true _ _).mp h
      refine ⟨c, rest, rfl, List.forall_mem_cons.2 ⟨?_, List.all_eq_true.1 hrest⟩⟩
      rcases (Bool.or_eq_true _ _).mp hfirst with hlower | hunderscore
      · simp [isPlainChar, hlower]
      · simp [isPlainChar, hunderscore]

end Traits

/-- No dialect opens its quotes with a character of a plain name. -/
theorem Dialect.isPlainChar_quoteOpen (dialect : Dialect) :
    Traits.isPlainChar dialect.traits.quoteOpen = false := by
  cases dialect <;> decide

section Reading

variable {dialect : Dialect} {isNameChar : Char → Bool} {name : String} {rest : List Char}

theorem readName_quoted (h : ¬ Traits.isPlain name.toList)
    (hrest : rest.head? ≠ some dialect.traits.quoteClose) :
    readName dialect.traits isNameChar ((dialect.traits.quote name).toList ++ rest) =
      some (name.toList, rest) := by
  rw [Traits.toList_quote_of_not_plain h, List.cons_append, List.append_assoc,
    List.singleton_append, readName, if_pos rfl]
  exact readDelimited_doubled name.toList hrest

/-- A run of characters of a sort is read as a whole if what follows is of another sort. -/
theorem span_append {cs : List Char} (h : ∀ c ∈ cs, isNameChar c)
    (hrest : ∀ c ∈ rest.head?, ¬ isNameChar c) :
    (cs ++ rest).takeWhile isNameChar = cs ∧ (cs ++ rest).dropWhile isNameChar = rest := by
  rw [List.takeWhile_append_of_pos h, List.dropWhile_append_of_pos h]
  cases rest with
  | nil => simp
  | cons d rest => simp [show isNameChar d = false by simpa using hrest]

theorem readName_plain (hchars : ∀ c, Traits.isPlainChar c → isNameChar c)
    (h : Traits.isPlain name.toList) (hrest : ∀ c ∈ rest.head?, ¬ isNameChar c) :
    readName dialect.traits isNameChar ((dialect.traits.quote name).toList ++ rest) =
      some (name.toList, rest) := by
  obtain ⟨c, later, hname, hplain⟩ := Traits.exists_cons_of_isPlain h
  have hc : Traits.isPlainChar c := hplain c (hname ▸ List.mem_cons_self)
  have hopen : c ≠ dialect.traits.quoteOpen := by
    rintro rfl
    exact Bool.false_ne_true (dialect.isPlainChar_quoteOpen.symm.trans hc)
  obtain ⟨htake, hdrop⟩ := span_append (fun d hd => hchars d (hplain d hd)) hrest
  rw [Traits.quote_eq_self_iff.2 h]
  rw [hname] at htake hdrop ⊢
  rw [List.cons_append] at htake hdrop ⊢
  rw [readName, if_neg hopen, if_pos (hchars c hc), htake, hdrop]

/-- What is written for a name is read as that name. -/
theorem readName_quote (hchars : ∀ c, Traits.isPlainChar c → isNameChar c)
    (hquoted : dialect.traits.quote name ≠ name → rest.head? ≠ some dialect.traits.quoteClose)
    (hbare : dialect.traits.quote name = name → ∀ c ∈ rest.head?, ¬ isNameChar c) :
    readName dialect.traits isNameChar ((dialect.traits.quote name).toList ++ rest) =
      some (name.toList, rest) := by
  by_cases h : Traits.isPlain name.toList
  · exact readName_plain hchars h (hbare (Traits.quote_eq_self_iff.2 h))
  · exact readName_quoted h (hquoted (mt Traits.quote_eq_self_iff.1 h))

end Reading

/-- What is written for a text constant is read as that text. -/
theorem readText_literal (traits : Traits) (text : String) {rest : List Char}
    (h : rest.head? ≠ some '\'') :
    readText (((Expr.literal (.string text)).print traits).toList ++ rest) =
      some (text.toList, rest) := by
  have hprint : ((Expr.literal (.string text)).print traits).toList =
      '\'' :: (Traits.doubled '\'' text.toList ++ ['\'']) := by
    rw [Expr.print, Literal.print, quotedText, String.toList_ofList]
  rw [hprint, List.cons_append, List.append_assoc, List.singleton_append, readText, if_pos rfl]
  exact readDelimited_doubled text.toList h

/-- A way of writing that can be read back writes no two texts alike. -/
theorem injective_of_reads {write : String → String}
    {read : List Char → Option (List Char × List Char)}
    (h : ∀ text, read ((write text).toList ++ []) = some (text.toList, [])) :
    Function.Injective write := by
  intro first second hsame
  have hread := (h first).symm.trans (hsame ▸ h second)
  exact String.toList_injective (Prod.mk.inj (Option.some.inj hread)).1

/-- Names and texts stay within their quotes, in every dialect.  What is written for a name is read
as that name and nothing more, if no closing quote follows it or, where it stands without quotes,
no further character of a name.  What is written for a text constant is read as that text if no
quote follows it.  No two names and no two texts are written alike. -/
theorem quotes_hold (dialect : Dialect) {isNameChar : Char → Bool}
    (hchars : ∀ c, Traits.isPlainChar c → isNameChar c) :
    (∀ (name : String) (rest : List Char),
      (dialect.traits.quote name ≠ name → rest.head? ≠ some dialect.traits.quoteClose) →
      (dialect.traits.quote name = name → ∀ c ∈ rest.head?, ¬ isNameChar c) →
      readName dialect.traits isNameChar ((dialect.traits.quote name).toList ++ rest) =
        some (name.toList, rest)) ∧
    (∀ (text : String) (rest : List Char), rest.head? ≠ some '\'' →
      readText (((Expr.literal (.string text)).print dialect.traits).toList ++ rest) =
        some (text.toList, rest)) ∧
    Function.Injective dialect.traits.quote ∧
    Function.Injective fun text => (Expr.literal (.string text)).print dialect.traits := by
  refine ⟨fun _ _ => readName_quote hchars, fun text _ => readText_literal _ text, ?_, ?_⟩
  · exact injective_of_reads fun name => readName_quote hchars (by simp) (by simp)
  · exact injective_of_reads fun text => readText_literal _ text (by simp)

/-- A common choice of the characters of names: letters, digits and the underscore. -/
def isWordChar (c : Char) : Bool := c.isAlphanum || c == '_'

theorem isWordChar_of_isPlainChar (c : Char) (h : Traits.isPlainChar c) : isWordChar c := by
  simp only [Traits.isPlainChar, Bool.or_eq_true] at h
  rcases h with (hlower | hdigit) | hunderscore
  · simp [isWordChar, Char.isAlphanum, Char.isAlpha, hlower]
  · simp [isWordChar, Char.isAlphanum, hdigit]
  · simp [isWordChar, hunderscore]

/-- A name and a text that try to leave their quotes, and a name without quotes, each followed by
more of the statement. -/
theorem quotes_hold_mssql :
    Dialect.mssql.traits.quote "x] = 1 --" = "[x]] = 1 --]" ∧
    readName Dialect.mssql.traits isWordChar "[x]] = 1 --].[y]".toList =
      some ("x] = 1 --".toList, ".[y]".toList) ∧
    readName Dialect.mssql.traits isWordChar "animal_1.name".toList =
      some ("animal_1".toList, ".name".toList) ∧
    readText "'it''s'' OR 1 = 1' AND".toList = some ("it's' OR 1 = 1".toList, " AND".toList) := by
  obtain ⟨hname, htext, -, -⟩ := quotes_hold .mssql isWordChar_of_isPlainChar
  have hquote : Dialect.mssql.traits.quote "x] = 1 --" = "[x]] = 1 --]" := by decide
  refine ⟨hquote, ?_, ?_, ?_⟩
  · exact hname "x] = 1 --" ".[y]".toList (fun _ => by decide) fun h => absurd h (by decide)
  · refine hname "animal_1" ".name".toList (fun h => absurd rfl h) fun _ c hc => ?_
    obtain rfl : '.' = c := Option.some.inj hc
    decide
  · exact htext "it's' OR 1 = 1" " AND".toList (by decide)

end TraversalSql.Sql
