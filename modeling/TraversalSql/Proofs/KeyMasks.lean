import TraversalSql.Proofs.CycleGuard

/-!
When a key is taken for visited.  A step compares the list of the keys on the way with a pattern
that is made of the next key, so it takes a key for visited if the key, read as a pattern, matches
some stretch of the list between two of its commas.  Keys that hold no comma and no character that
stands for others in patterns are taken for visited only if they are.
-/

namespace TraversalSql

namespace Sql

theorem like_percent_cons_iff {pattern text : List Char} :
    like ('%' :: pattern) text ↔ ∃ skipped rest, text = skipped ++ rest ∧ like pattern rest := by
  constructor
  · intro h
    simp only [like, if_true, List.any_eq_true, List.mem_tails] at h
    obtain ⟨rest, ⟨skipped, rfl⟩, hrest⟩ := h
    exact ⟨skipped, rest, rfl, hrest⟩
  · rintro ⟨skipped, rest, rfl, hrest⟩
    exact like_percent_append hrest skipped

/-- A pattern in two parts matches texts in two parts. -/
theorem like_append_iff {first second text : List Char} :
    like (first ++ second) text ↔
      ∃ front back, text = front ++ back ∧ like first front ∧ like second back := by
  induction first generalizing text with
  | nil =>
      constructor
      · exact fun h => ⟨[], text, rfl, rfl, h⟩
      · rintro ⟨front, back, rfl, hfront, hback⟩
        obtain rfl : front = [] := List.isEmpty_iff.1 hfront
        exact hback
  | cons c first ih =>
      by_cases hc : c = '%'
      · subst hc
        rw [List.cons_append, like_percent_cons_iff]
        constructor
        · rintro ⟨skipped, rest, rfl, hrest⟩
          obtain ⟨front, back, rfl, hfront, hback⟩ := ih.1 hrest
          exact ⟨skipped ++ front, back, (List.append_assoc ..).symm,
            like_percent_append hfront skipped, hback⟩
        · rintro ⟨front, back, rfl, hfront, hback⟩
          obtain ⟨skipped, rest, rfl, hrest⟩ := like_percent_cons_iff.1 hfront
          exact ⟨skipped, rest ++ back, List.append_assoc .., ih.2 ⟨rest, back, rfl, hrest, hback⟩⟩
      · constructor
        · intro h
          cases text with
          | nil => simp [like, hc] at h
          | cons d text =>
              simp only [List.cons_append, like, hc, if_false, Bool.and_eq_true] at h
              obtain ⟨front, back, rfl, hfront, hback⟩ := ih.1 h.2
              exact ⟨d :: front, back, rfl, by simpa [like, hc] using ⟨by simpa using h.1, hfront⟩,
                hback⟩
        · rintro ⟨front, back, rfl, hfront, hback⟩
          cases front with
          | nil => simp [like, hc] at hfront
          | cons d front =>
              simp only [like, hc, if_false, Bool.and_eq_true] at hfront
              have hrest := ih.2 ⟨front, back, rfl, hfront.2, hback⟩
              simpa [like, hc] using ⟨by simpa using hfront.1, hrest⟩

/-- A key whose characters stand for themselves wherever keys are listed and matched. -/
def Plain (key : String) : Prop := ',' ∉ key.toList ∧ '%' ∉ key.toList ∧ '_' ∉ key.toList

instance (key : String) : Decidable (Plain key) :=
  inferInstanceAs (Decidable (',' ∉ key.toList ∧ '%' ∉ key.toList ∧ '_' ∉ key.toList))

/-- A pattern of characters that stand for themselves matches itself only. -/
theorem like_iff_of_not_mem {pattern text : List Char} (hpercent : '%' ∉ pattern)
    (hunderscore : '_' ∉ pattern) : like pattern text ↔ text = pattern := by
  induction pattern generalizing text with
  | nil => simp [like]
  | cons c pattern ih =>
      rw [List.mem_cons, not_or] at hpercent hunderscore
      cases text with
      | nil => simp [like, Ne.symm hpercent.1]
      | cons d text =>
          simp only [like, Ne.symm hpercent.1, if_false, Bool.and_eq_true, Bool.or_eq_true,
            beq_iff_eq, Ne.symm hunderscore.1, false_or, ih hpercent.2 hunderscore.2,
            List.cons.injEq]
          rw [eq_comm]

/-- A key is masked by the keys on the way if, as a pattern, it matches a stretch of their list
between two of its commas. -/
def Masked (visited : List String) (key : String) : Prop :=
  ∃ front stretch back, (pathOf visited).toList = front ++ ',' :: (stretch ++ ',' :: back) ∧
    like key.toList stretch

/-- The pattern of a step matches the list of the keys on the way exactly if its key is masked. -/
theorem like_pathOf_iff {visited : List String} {key : String} :
    like ("%," ++ key ++ ",%").toList (pathOf visited).toList ↔ Masked visited key := by
  have hpattern : ("%," ++ key ++ ",%").toList =
      '%' :: ([','] ++ (key.toList ++ ([','] ++ ['%']))) := by
    simp [String.toList_append]
  have hcomma : ∀ {text : List Char}, like [','] text ↔ text = [','] :=
    like_iff_of_not_mem (by decide) (by decide)
  rw [hpattern, like_percent_cons_iff]
  simp only [like_append_iff, hcomma]
  constructor
  · rintro ⟨front, _, htext, _, _, rfl, rfl, stretch, _, rfl, hkey, _, back, rfl, rfl, -⟩
    exact ⟨front, stretch, back, htext, hkey⟩
  · rintro ⟨front, stretch, back, htext, hkey⟩
    exact ⟨front, _, htext, [','], _, rfl, rfl, stretch, _, rfl, hkey, [','], back, rfl, rfl,
      like_percent back⟩

theorem masked_of_mem {visited : List String} {key : String} (h : key ∈ visited) :
    Masked visited key :=
  like_pathOf_iff.1 (like_pathOf h)

theorem not_masked_nil (key : String) : ¬ Masked [] key := by
  rintro ⟨front, stretch, back, hpath, -⟩
  have hlength := congrArg List.length hpath
  simp [pathOf] at hlength
  omega

theorem toList_pathOf_cons (key : String) (keys : List String) :
    (pathOf (key :: keys)).toList = ',' :: (key.toList ++ (pathOf keys).toList) := by
  simp [pathOf]

theorem takeWhile_append_comma {text rest : List Char} (h : ',' ∉ text) :
    (text ++ ',' :: rest).takeWhile (· != ',') = text := by
  have hall : ∀ c ∈ text, (c != ',') = true := by
    intro c hc
    rw [bne_iff_ne]
    rintro rfl
    exact h hc
  rw [List.takeWhile_append_of_pos hall]
  simp

/-- Where no key holds a comma, what stands between two commas of their list without one is a
key. -/
theorem mem_of_toList_pathOf {visited : List String} {key : String} {front back : List Char}
    (hvisited : ∀ other ∈ visited, ',' ∉ other.toList) (hkey : ',' ∉ key.toList)
    (h : (pathOf visited).toList = front ++ ',' :: (key.toList ++ ',' :: back)) :
    key ∈ visited := by
  induction visited generalizing front with
  | nil =>
      have hlength := congrArg List.length h
      simp [pathOf] at hlength
      omega
  | cons other visited ih =>
      obtain ⟨hother, hvisited⟩ := List.forall_mem_cons.1 hvisited
      obtain ⟨rest, hrest⟩ : ∃ rest, (pathOf visited).toList = ',' :: rest := by
        cases visited with
        | nil => exact ⟨[], rfl⟩
        | cons next visited => exact ⟨_, toList_pathOf_cons next visited⟩
      rw [toList_pathOf_cons] at h
      cases front with
      | nil =>
          -- The stretch starts where the first key does, and both end at the next comma.
          rw [List.nil_append, List.cons.injEq, hrest] at h
          have hsame : other.toList = key.toList := by
            rw [← takeWhile_append_comma hother, h.2, takeWhile_append_comma hkey]
          exact List.mem_cons.2 (.inl (String.toList_inj.1 hsame.symm))
      | cons c front =>
          rw [List.cons_append, List.cons.injEq] at h
          obtain ⟨rfl, h⟩ := h
          rcases List.append_eq_append_iff.1 h with ⟨more, rfl, hmore⟩ | ⟨more, hmore, hback⟩
          · exact List.mem_cons_of_mem _ (ih hvisited hmore)
          · cases more with
            | nil =>
                have hrest : (pathOf visited).toList =
                    [] ++ ',' :: (key.toList ++ ',' :: back) := hback.symm
                exact List.mem_cons_of_mem _ (ih hvisited hrest)
            | cons d more =>
                obtain ⟨rfl, -⟩ := List.cons.inj hback
                exact absurd (hmore ▸ List.mem_append_right _ List.mem_cons_self) hother

/-- A plain key is masked exactly if it is on the way, where no key holds a comma. -/
theorem masked_iff_mem {visited : List String} {key : String}
    (hvisited : ∀ other ∈ visited, ',' ∉ other.toList) (hkey : Plain key) :
    Masked visited key ↔ key ∈ visited := by
  constructor
  · rintro ⟨front, stretch, back, hpath, hlike⟩
    rw [like_iff_of_not_mem hkey.2.1 hkey.2.2] at hlike
    subst hlike
    exact mem_of_toList_pathOf hvisited hkey.1 hpath
  · exact masked_of_mem

/-- No key is masked by the keys before it. -/
def Unmasked (keys : List String) : Prop :=
  ∀ earlier key, earlier ++ [key] <+: keys → ¬ Masked earlier key

theorem unmasked_concat_iff {keys : List String} {key : String} :
    Unmasked (keys ++ [key]) ↔ Unmasked keys ∧ ¬ Masked keys key := by
  constructor
  · intro h
    refine ⟨fun earlier other hother => ?_, h keys key (List.prefix_refl _)⟩
    exact h earlier other (hother.trans (List.prefix_append _ _))
  · rintro ⟨hkeys, hkey⟩ earlier other hother
    rcases List.prefix_concat_iff.1 hother with hsame | hother
    · obtain ⟨rfl, hlast⟩ := List.append_inj' hsame rfl
      obtain rfl := List.singleton_inj.1 hlast
      exact hkey
    · exact hkeys earlier other hother

/-- Keys of plain characters are unmasked exactly if no two are the same. -/
theorem unmasked_iff_nodup {keys : List String} (h : ∀ key ∈ keys, Plain key) :
    Unmasked keys ↔ keys.Nodup := by
  induction keys using List.reverseRecOn with
  | nil => simp [Unmasked]
  | append_singleton keys key ih =>
      simp only [List.mem_append, List.mem_singleton] at h
      have hkeys : ∀ other ∈ keys, Plain other := fun other hother => h other (.inl hother)
      rw [unmasked_concat_iff, ih hkeys,
        masked_iff_mem (fun other hother => (hkeys other hother).1) (h key (.inr rfl)),
        List.nodup_append']
      simp

end Sql

end TraversalSql
