/-!
# Splitting text

`splitWhere` cuts a text at every character of a class; the pieces are what stands between the
cuts, and pieces that were put together are found again (`splitWhere_intercalate`). `cutAt?` cuts a
text at the first occurrence of a pattern, and gives what was passed in reverse. There is no cut
exactly if the pattern does not occur (`cutAt?_eq_none_iff`), and before its end the pattern does not
occur (`cutAt?_append`).
-/

namespace CellMachine.Text

/-- The pieces between the characters of a class, empty ones included. -/
def splitWhere (cut : Char → Bool) : List Char → List (List Char)
  | [] => [[]]
  | c :: rest =>
    if cut c then [] :: splitWhere cut rest
    else match splitWhere cut rest with
      | [] => [[c]]
      | piece :: pieces => (c :: piece) :: pieces

theorem splitWhere_ne_nil (cut : Char → Bool) (s : List Char) : splitWhere cut s ≠ [] := by
  cases s with
  | nil => exact List.cons_ne_nil _ _
  | cons c s =>
    rw [splitWhere]
    split
    · exact List.cons_ne_nil _ _
    · split
      · exact List.cons_ne_nil _ _
      · exact List.cons_ne_nil _ _

theorem splitWhere_of_free {cut : Char → Bool} {s : List Char} (h : ∀ c ∈ s, cut c = false) :
    splitWhere cut s = [s] := by
  induction s with
  | nil => rfl
  | cons c s ih =>
    rw [List.forall_mem_cons] at h
    simp [splitWhere, h.1, ih h.2]

/-- A text is split on either side of a character of the class. -/
theorem splitWhere_append_cut {cut : Char → Bool} {d : Char} (hd : cut d = true)
    (s rest : List Char) :
    splitWhere cut (s ++ d :: rest) = splitWhere cut s ++ splitWhere cut rest := by
  induction s with
  | nil => simp [splitWhere, hd]
  | cons c s ih =>
    rw [List.cons_append, splitWhere, splitWhere, ih]
    split
    · rfl
    · -- the character joins the first piece
      cases hs : splitWhere cut s with
      | nil => exact absurd hs (splitWhere_ne_nil cut s)
      | cons piece pieces => rfl

/-- A piece ends at the first character of the class. -/
theorem splitWhere_append_cons {cut : Char → Bool} {s : List Char} (h : ∀ c ∈ s, cut c = false)
    {d : Char} (hd : cut d = true) (rest : List Char) :
    splitWhere cut (s ++ d :: rest) = s :: splitWhere cut rest := by
  rw [splitWhere_append_cut hd, splitWhere_of_free h, List.singleton_append]

/-- **Where texts meet**, the last piece of the one and the first of the other are one. -/
theorem splitWhere_append {cut : Char → Bool} {s t last first : List Char}
    {front back : List (List Char)} (hs : splitWhere cut s = front ++ [last])
    (ht : splitWhere cut t = first :: back) :
    splitWhere cut (s ++ t) = front ++ (last ++ first) :: back := by
  induction s generalizing front last with
  | nil =>
    cases front with
    | nil =>
      obtain ⟨rfl, -⟩ := List.cons.inj hs
      exact ht
    | cons piece front => cases front <;> cases hs
  | cons c s ih =>
    rw [splitWhere] at hs
    rw [List.cons_append, splitWhere]
    split at hs
    · next hc =>
      -- the piece that the character ends is not the last
      rw [if_pos hc]
      cases front with
      | nil => exact absurd (List.cons.inj hs).2 (splitWhere_ne_nil cut s)
      | cons piece front =>
        obtain ⟨rfl, hlater⟩ := List.cons.inj hs
        rw [ih hlater, List.cons_append]
    · next hc =>
      rw [if_neg hc]
      cases hpieces : splitWhere cut s with
      | nil => exact absurd hpieces (splitWhere_ne_nil cut s)
      | cons piece pieces =>
        rw [hpieces] at hs
        cases front with
        | nil =>
          obtain ⟨rfl, rfl⟩ := List.cons.inj hs
          rw [@ih piece [] hpieces]
          rfl
        | cons piece' front =>
          obtain ⟨rfl, rfl⟩ := List.cons.inj hs
          rw [@ih last (piece :: front) hpieces]
          rfl

/-- Pieces that were put together are found again. -/
theorem splitWhere_intercalate {cut : Char → Bool} {d : Char} (hd : cut d = true)
    {pieces : List (List Char)} (hne : pieces ≠ []) (h : ∀ s ∈ pieces, ∀ c ∈ s, cut c = false) :
    splitWhere cut ([d].intercalate pieces) = pieces := by
  induction pieces with
  | nil => exact absurd rfl hne
  | cons s pieces ih =>
    rw [List.forall_mem_cons] at h
    cases pieces with
    | nil => rw [List.intercalate_singleton, splitWhere_of_free h.1]
    | cons s' pieces =>
      rw [List.intercalate_cons_cons, List.append_assoc, List.singleton_append,
        splitWhere_append_cons h.1 hd, ih (List.cons_ne_nil _ _) h.2]

/-- The pieces hold what the text holds, but for the characters of the class. -/
theorem exists_mem_splitWhere_iff {cut : Char → Bool} {c : Char} (hc : cut c = false)
    (s : List Char) : (∃ piece ∈ splitWhere cut s, c ∈ piece) ↔ c ∈ s := by
  induction s with
  | nil => simp [splitWhere]
  | cons d s ih =>
    rw [splitWhere]
    by_cases hd : cut d = true
    · have hne : c ≠ d := by
        rintro rfl
        rw [hc] at hd
        cases hd
      simp [hd, ih, hne]
    · rw [if_neg hd, List.mem_cons, ← ih]
      -- the character joins the first piece
      cases splitWhere cut s with
      | nil => simp
      | cons piece pieces => simp [or_assoc]

theorem mem_of_mem_intercalate {sep : List Char} {ws : List (List Char)} {c : Char}
    (h : c ∈ sep.intercalate ws) : c ∈ sep ∨ ∃ w ∈ ws, c ∈ w := by
  induction ws with
  | nil => cases h
  | cons w ws ih =>
    cases ws with
    | nil =>
      rw [List.intercalate_singleton] at h
      exact Or.inr ⟨w, List.mem_cons_self, h⟩
    | cons w' ws =>
      rw [List.intercalate_cons_cons, List.mem_append, List.mem_append] at h
      rcases h with (h | h) | h
      · exact Or.inr ⟨w, List.mem_cons_self, h⟩
      · exact Or.inl h
      · exact (ih h).imp_right fun ⟨v, hv, hc⟩ => ⟨v, List.mem_cons_of_mem w hv, hc⟩

theorem mem_intercalate_of_mem {sep w : List Char} {ws : List (List Char)} {c : Char} (hw : w ∈ ws)
    (hc : c ∈ w) : c ∈ sep.intercalate ws := by
  induction ws with
  | nil => cases hw
  | cons v ws ih =>
    cases ws with
    | nil =>
      obtain rfl := List.mem_singleton.mp hw
      rwa [List.intercalate_singleton]
    | cons v' ws =>
      rw [List.intercalate_cons_cons, List.mem_append, List.mem_append]
      rcases List.mem_cons.mp hw with rfl | hw
      · exact Or.inl (Or.inl hc)
      · exact Or.inr (ih hw)

/-- What follows a pattern at the front of a text. -/
def after? : List Char → List Char → Option (List Char)
  | [], text => some text
  | _ :: _, [] => none
  | p :: pattern, c :: text => if p = c then after? pattern text else none

/-- The first occurrence of a pattern: what was passed before it, in reverse and on top of what was
passed already, and what follows it. -/
def cutFrom (pattern passed text : List Char) : Option (List Char × List Char) :=
  match after? pattern text with
  | some rest => some (passed, rest)
  | none =>
    match text with
    | [] => none
    | c :: text => cutFrom pattern (c :: passed) text

/-- What stands before the first occurrence of a pattern, in reverse, and what follows it. -/
def cutAt? (pattern text : List Char) : Option (List Char × List Char) := cutFrom pattern [] text

theorem after?_eq_some_iff {pattern text rest : List Char} :
    after? pattern text = some rest ↔ text = pattern ++ rest := by
  induction pattern generalizing text with
  | nil => simp [after?]
  | cons p pattern ih =>
    cases text with
    | nil => simp [after?]
    | cons c text =>
      by_cases h : p = c
      · simp [after?, h, ih]
      · have h' : c ≠ p := fun e => h e.symm
        simp [after?, h, h']

/-- A text is not cut exactly if the pattern occurs nowhere in it. -/
theorem cutFrom_eq_none_iff {pattern passed text : List Char} :
    cutFrom pattern passed text = none ↔ ¬ pattern <:+: text := by
  induction text generalizing passed with
  | nil =>
    unfold cutFrom
    cases pattern <;> simp [after?]
  | cons c text ih =>
    unfold cutFrom
    rw [List.infix_cons_iff]
    cases ha : after? pattern (c :: text) with
    | some r =>
      have hp : pattern <+: c :: text := ⟨r, (after?_eq_some_iff.1 ha).symm⟩
      simp [hp]
    | none =>
      have hp : ¬ pattern <+: c :: text := by
        rintro ⟨r, hr⟩
        rw [after?_eq_some_iff.2 hr.symm] at ha
        cases ha
      simp [hp, ih]

theorem cutAt?_eq_none_iff {pattern text : List Char} :
    cutAt? pattern text = none ↔ ¬ pattern <:+: text :=
  cutFrom_eq_none_iff

/-- What was passed already stays below what is passed. -/
theorem cutFrom_eq_map (pattern passed text : List Char) :
    cutFrom pattern passed text = (cutAt? pattern text).map fun x => (x.1 ++ passed, x.2) := by
  have hgeneral : ∀ front : List Char, cutFrom pattern (front ++ passed) text =
      (cutFrom pattern front text).map fun x => (x.1 ++ passed, x.2) := by
    induction text with
    | nil =>
      intro front
      unfold cutFrom
      cases after? pattern [] with
      | none => rfl
      | some rest => rfl
    | cons c text ih =>
      intro front
      unfold cutFrom
      cases after? pattern (c :: text) with
      | none => exact ih (c :: front)
      | some rest => rfl
  exact hgeneral []

theorem cutAt?_append_self (pattern rest : List Char) :
    cutAt? pattern (pattern ++ rest) = some ([], rest) := by
  unfold cutAt? cutFrom
  rw [after?_eq_some_iff.mpr rfl]

theorem after?_eq_none_iff {pattern text : List Char} :
    after? pattern text = none ↔ ¬ pattern <+: text := by
  rw [Option.eq_none_iff_forall_not_mem]
  constructor
  · rintro h ⟨rest, hrest⟩
    exact h rest (after?_eq_some_iff.mpr hrest.symm)
  · rintro h rest hrest
    exact h ⟨rest, (after?_eq_some_iff.mp hrest).symm⟩

/-- A pattern that does not have a character does not reach over it. -/
theorem prefix_of_prefix_append_cons {pattern line rest : List Char} {d : Char} (hd : d ∉ pattern)
    (h : pattern <+: line ++ d :: rest) : pattern <+: line := by
  obtain ⟨tail, htail⟩ := h
  rcases List.append_eq_append_iff.mp htail with ⟨more, hline, -⟩ | ⟨more, hpattern, hmore⟩
  · exact ⟨more, hline.symm⟩
  · cases more with
    | nil =>
      rw [List.append_nil] at hpattern
      exact hpattern ▸ List.prefix_refl _
    | cons c more =>
      -- the pattern would go on with the character
      rw [List.cons_append] at hmore
      obtain ⟨rfl, -⟩ := List.cons.inj hmore
      exact absurd (hpattern ▸ List.mem_append_right _ List.mem_cons_self) hd

/-- A line without the pattern is passed. -/
theorem cutAt?_append_cons {pattern line : List Char} {d : Char} (hne : pattern ≠ [])
    (hd : d ∉ pattern) (h : ¬ pattern <:+: line) (rest : List Char) :
    cutAt? pattern (line ++ d :: rest) =
      (cutAt? pattern rest).map fun x => (x.1 ++ (line ++ [d]).reverse, x.2) := by
  suffices hgeneral : ∀ passed, cutFrom pattern passed (line ++ d :: rest) =
      cutFrom pattern ((line ++ [d]).reverse ++ passed) rest by
    have hcut := hgeneral []
    rw [List.append_nil, cutFrom_eq_map pattern _ rest] at hcut
    exact hcut
  induction line with
  | nil =>
    intro passed
    have hnone : after? pattern (d :: rest) = none :=
      after?_eq_none_iff.mpr fun hp => hne (List.prefix_nil.mp (prefix_of_prefix_append_cons hd hp))
    rw [List.nil_append, cutFrom, hnone]
    rfl
  | cons c line ih =>
    intro passed
    rw [List.infix_cons_iff, not_or] at h
    have hnone : after? pattern (c :: line ++ d :: rest) = none :=
      after?_eq_none_iff.mpr fun hp => h.1 (prefix_of_prefix_append_cons hd hp)
    rw [List.cons_append] at hnone ⊢
    rw [cutFrom, hnone]
    dsimp only
    rw [ih h.2 (c :: passed)]
    simp

/-- A pattern that does not have a character stands on one side of it. -/
theorem infix_append_cons_iff {pattern front rest : List Char} {d : Char} (hne : pattern ≠ [])
    (hd : d ∉ pattern) :
    pattern <:+: front ++ d :: rest ↔ pattern <:+: front ∨ pattern <:+: rest := by
  induction front with
  | nil =>
    have hprefix : ¬ pattern <+: [] ++ d :: rest := fun hp =>
      hne (List.prefix_nil.mp (prefix_of_prefix_append_cons hd hp))
    rw [List.nil_append] at hprefix ⊢
    rw [List.infix_cons_iff, or_iff_right hprefix, List.infix_nil, or_iff_right hne]
  | cons c front ih =>
    have hprefix : pattern <+: c :: front ++ d :: rest ↔ pattern <+: c :: front :=
      ⟨prefix_of_prefix_append_cons hd, fun hp => hp.trans (List.prefix_append _ _)⟩
    rw [List.cons_append] at hprefix ⊢
    rw [List.infix_cons_iff, List.infix_cons_iff, ih, hprefix, or_assoc]

/-- The first occurrence of a pattern is the one before whose end there is no other. -/
theorem cutAt?_append {pattern front : List Char} (hne : pattern ≠ [])
    (h : ¬ pattern <:+: front ++ pattern.dropLast) (rest : List Char) :
    cutAt? pattern (front ++ (pattern ++ rest)) = some (front.reverse, rest) := by
  suffices hgeneral : ∀ passed, cutFrom pattern passed (front ++ (pattern ++ rest)) =
      some (front.reverse ++ passed, rest) by
    have hcut := hgeneral []
    rw [List.append_nil] at hcut
    exact hcut
  induction front with
  | nil =>
    intro passed
    rw [List.nil_append, cutFrom.eq_def, after?_eq_some_iff.mpr rfl]
    rfl
  | cons c front ih =>
    intro passed
    rw [List.cons_append, List.infix_cons_iff, not_or] at h
    -- an occurrence further in front would end before the pattern does
    have hnone : after? pattern (c :: (front ++ (pattern ++ rest))) = none := by
      rw [after?_eq_none_iff]
      intro hp
      refine h.1 (List.prefix_of_prefix_length_le hp ?_ ?_)
      · rw [← List.cons_append, ← List.cons_append, List.prefix_append_right_inj]
        exact (List.dropLast_prefix pattern).trans (List.prefix_append pattern rest)
      · have hpos := List.length_pos_iff.mpr hne
        simp only [List.length_cons, List.length_append, List.length_dropLast]
        omega
    rw [List.cons_append, cutFrom, hnone]
    dsimp only
    rw [ih h.2 (c :: passed)]
    simp

/-- A pattern that occurs in a text has a first occurrence. -/
theorem exists_first_of_infix {pattern text : List Char} (hne : pattern ≠ [])
    (h : pattern <:+: text) :
    ∃ front rest, text = front ++ (pattern ++ rest) ∧ ¬ pattern <:+: front ++ pattern.dropLast := by
  induction text with
  | nil => exact absurd (List.infix_nil.mp h) hne
  | cons c text ih =>
    by_cases hprefix : pattern <+: c :: text
    · obtain ⟨rest, hrest⟩ := hprefix
      refine ⟨[], rest, hrest.symm, fun hinfix => ?_⟩
      have hlength := hinfix.length_le
      have hpos := List.length_pos_iff.mpr hne
      rw [List.nil_append, List.length_dropLast] at hlength
      omega
    · obtain ⟨front, rest, rfl, hfirst⟩ := ih ((List.infix_cons_iff.mp h).resolve_left hprefix)
      refine ⟨c :: front, rest, rfl, ?_⟩
      rw [List.cons_append, List.infix_cons_iff, not_or]
      refine ⟨fun hp => hprefix (hp.trans ?_), hfirst⟩
      rw [← List.cons_append, ← List.cons_append, List.prefix_append_right_inj]
      exact (List.dropLast_prefix pattern).trans (List.prefix_append pattern rest)

end CellMachine.Text
