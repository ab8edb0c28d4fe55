import Mathlib.Data.List.DropRight
import Polysynth.Text

namespace Polysynth.Text

variable {p : Char → Bool} {c : Char} {cs piece : List Char}

theorem pieces_cons_marked (h : p c = true) (cs : List Char) :
    pieces p (c :: cs) = [] :: pieces p cs := by
  simp [pieces, h]

theorem pieces_cons_unmarked (h : p c = false) (cs : List Char) :
    pieces p (c :: cs) = consFirst c (pieces p cs) := by
  simp [pieces, h]

theorem pieces_append_marked (hp : ∀ c ∈ piece, p c = false) (hc : p c = true) (cs : List Char) :
    pieces p (piece ++ c :: cs) = piece :: pieces p cs := by
  induction piece with
  | nil => exact pieces_cons_marked hc cs
  | cons d piece ih =>
    have hd : p d = false := hp d (by simp)
    rw [List.cons_append, pieces_cons_unmarked hd, ih (fun e he => hp e (by simp [he]))]
    rfl

theorem pieces_of_unmarked (hp : ∀ c ∈ piece, p c = false) : pieces p piece = [piece] := by
  induction piece with
  | nil => rfl
  | cons d piece ih =>
    rw [pieces_cons_unmarked (hp d (by simp)), ih (fun e he => hp e (by simp [he]))]
    rfl

theorem pieces_ne_nil (p : Char → Bool) (cs : List Char) : pieces p cs ≠ [] := by
  cases cs with
  | nil => simp [pieces]
  | cons c cs =>
    cases hc : p c with
    | true => simp [pieces_cons_marked hc]
    | false => rw [pieces_cons_unmarked hc]; cases pieces p cs <;> simp [consFirst]

theorem flatten_consFirst (c : Char) (ps : List (List Char)) :
    (consFirst c ps).flatten = c :: ps.flatten := by
  cases ps <;> rfl

/-- No character is lost but those that mark the ends of pieces. -/
theorem flatten_pieces (p : Char → Bool) (cs : List Char) :
    (pieces p cs).flatten = cs.filter (fun c => !p c) := by
  induction cs with
  | nil => rfl
  | cons c cs ih =>
    cases hc : p c with
    | true => simp [pieces_cons_marked hc, hc, ih]
    | false => simp [pieces_cons_unmarked hc, flatten_consFirst, hc, ih]

/-- No part keeps a mark. -/
theorem unmarked_of_mem_pieces (hl : piece ∈ pieces p cs) (hc : c ∈ piece) : p c = false := by
  have hm : c ∈ (pieces p cs).flatten := List.mem_flatten.mpr ⟨piece, hl, hc⟩
  rw [flatten_pieces] at hm
  simpa using (List.mem_filter.mp hm).2

/-- A character that is not blank is in some word. -/
theorem words_ne_nil (hm : c ∈ cs) (hc : isBlank c = false) : words cs ≠ [] := by
  have hf : c ∈ (pieces isBlank cs).flatten := by simp [flatten_pieces, hm, hc]
  obtain ⟨w, hw, hcw⟩ := List.mem_flatten.mp hf
  have hne : w ≠ [] := List.ne_nil_of_mem hcw
  have hmem : w ∈ words cs := List.mem_filter.mpr ⟨hw, by simpa using hne⟩
  exact List.ne_nil_of_mem hmem

/-- What is left of a trimmed text has a character that is not blank. -/
theorem exists_not_blank (h : trim cs ≠ []) : ∃ c ∈ trim cs, isBlank c = false := by
  unfold trim at h ⊢
  generalize (cs.dropWhile isBlank).reverse = rs at h ⊢
  have hne : rs.dropWhile isBlank ≠ [] := by simpa using h
  exact ⟨_, List.mem_reverse.mpr (List.head_mem hne), List.head_dropWhile_not isBlank hne⟩

theorem trim_cons_blank (h : isBlank c = true) (cs : List Char) : trim (c :: cs) = trim cs := by
  simp [trim, h]

theorem trim_sublist (cs : List Char) : (trim cs).Sublist cs :=
  (List.rdropWhile_prefix isBlank _).sublist.trans (List.dropWhile_sublist isBlank)

theorem trim_trim (cs : List Char) : trim (trim cs) = trim cs := by
  change List.rdropWhile isBlank ((trim cs).dropWhile isBlank) = trim cs
  -- What is left begins as the text without its blanks in front does.
  have hd : (trim cs).dropWhile isBlank = trim cs := by
    apply List.dropWhile_eq_self_iff.mpr
    intro hl
    have hp : trim cs <+: cs.dropWhile isBlank := List.rdropWhile_prefix isBlank _
    rw [hp.getElem hl]
    exact List.dropWhile_eq_self_iff.mp (List.dropWhile_idempotent isBlank cs) _
  rw [hd]
  exact List.rdropWhile_idempotent isBlank _

theorem trim_concat_blank (hb : isBlank c = true) (cs : List Char) : trim (cs ++ [c]) = trim cs := by
  change List.rdropWhile isBlank ((cs ++ [c]).dropWhile isBlank) =
    List.rdropWhile isBlank (cs.dropWhile isBlank)
  rw [List.dropWhile_append]
  split
  · rename_i he
    rw [List.isEmpty_iff.mp he]
    simp [hb]
  · exact List.rdropWhile_concat_pos isBlank _ c hb

/-- Text that neither begins nor ends with a blank. -/
structure Solid (cs : List Char) : Prop where
  first : ∃ c, cs.head? = some c ∧ isBlank c = false
  last : ∃ c, cs.getLast? = some c ∧ isBlank c = false

namespace Solid

variable {a b sep : List Char} {ws : List (List Char)}

theorem ne_nil (h : Solid cs) : cs ≠ [] := by
  rintro rfl
  obtain ⟨c, hc, _⟩ := h.first
  simp at hc

theorem of_unblank (hne : cs ≠ []) (h : ∀ c ∈ cs, isBlank c = false) : Solid cs where
  first := ⟨cs.head hne, List.head?_eq_some_head hne, h _ (List.head_mem hne)⟩
  last := ⟨cs.getLast hne, List.getLast?_eq_some_getLast hne, h _ (List.getLast_mem hne)⟩

/-- What stands between two solid ends does not matter. -/
theorem append (ha : Solid a) (mid : List Char) (hb : Solid b) : Solid (a ++ mid ++ b) where
  first := by
    obtain ⟨c, hc, hn⟩ := ha.first
    exact ⟨c, by simp [List.head?_append, hc], hn⟩
  last := by
    obtain ⟨c, hc, hn⟩ := hb.last
    exact ⟨c, by simp [List.getLast?_append, hc], hn⟩

theorem intercalate (hne : ws ≠ []) (h : ∀ w ∈ ws, Solid w) : Solid (sep.intercalate ws) := by
  induction ws with
  | nil => exact absurd rfl hne
  | cons w ws ih =>
    cases ws with
    | nil => simpa using h w (by simp)
    | cons v ws =>
      rw [List.intercalate_cons_cons]
      exact (h w (by simp)).append sep (ih (by simp) (fun u hu => h u (by simp [hu])))

theorem trim_eq (h : Solid cs) : trim cs = cs := by
  obtain ⟨c, hc, hcn⟩ := h.first
  obtain ⟨d, hd, hdn⟩ := h.last
  obtain ⟨as, rfl⟩ := List.head?_eq_some_iff.mp hc
  obtain ⟨bs, hb⟩ := List.getLast?_eq_some_iff.mp hd
  simp only [trim, List.dropWhile_cons_of_neg (by simp [hcn] : ¬ isBlank c = true)]
  rw [hb, List.reverse_append]
  simp [hdn]

end Solid

theorem mem_intercalate_cases {sep : List Char} {ws : List (List Char)}
    (h : c ∈ sep.intercalate ws) : c ∈ sep ∨ ∃ w ∈ ws, c ∈ w := by
  induction ws with
  | nil => simp [List.intercalate] at h
  | cons w ws ih =>
    cases ws with
    | nil => exact .inr ⟨w, by simp, by simpa using h⟩
    | cons v ws =>
      rw [List.intercalate_cons_cons] at h
      rcases List.mem_append.mp h with h | h
      · rcases List.mem_append.mp h with h | h
        · exact .inr ⟨w, by simp, h⟩
        · exact .inl h
      · rcases ih h with h | ⟨u, hu, h⟩
        · exact .inl h
        · exact .inr ⟨u, List.mem_cons_of_mem w hu, h⟩

/-- Text that was joined with marks splits into the same parts. -/
theorem pieces_intercalate {sep : Char} {ws : List (List Char)} (hs : p sep = true)
    (h : ∀ w ∈ ws, ∀ c ∈ w, p c = false) (hne : ws ≠ []) :
    pieces p ([sep].intercalate ws) = ws := by
  induction ws with
  | nil => exact absurd rfl hne
  | cons w ws ih =>
    cases ws with
    | nil => simpa using pieces_of_unmarked (h w (by simp))
    | cons v ws =>
      rw [List.intercalate_cons_cons, List.append_assoc, List.singleton_append,
        pieces_append_marked (h w (by simp)) hs, ih (fun u hu => h u (by simp [hu])) (by simp)]

theorem words_intercalate {ws : List (List Char)} (hne : ws ≠ [])
    (h : ∀ w ∈ ws, w ≠ [] ∧ ∀ c ∈ w, isBlank c = false) : words ([' '].intercalate ws) = ws := by
  rw [words, pieces_intercalate (by decide) (fun w hw => (h w hw).2) hne]
  exact List.filter_eq_self.mpr (fun w hw => by simpa using (h w hw).1)

theorem map_trim_pieces_cons_blank (hb : isBlank c = true) (hc : p c = false) (cs : List Char) :
    (pieces p (c :: cs)).map trim = (pieces p cs).map trim := by
  obtain ⟨piece, ps, hp⟩ := List.exists_cons_of_ne_nil (pieces_ne_nil p cs)
  rw [pieces_cons_unmarked hc, hp]
  simp [consFirst, trim_cons_blank hb]

/-- A list of names with a comma and a blank between them is read back. -/
theorem pieces_commas {ws : List (List Char)} (hne : ws ≠ [])
    (h : ∀ w ∈ ws, Solid w ∧ ∀ c ∈ w, (c == ',') = false) :
    (pieces (fun c => c == ',') ([',', ' '].intercalate ws)).map trim = ws := by
  induction ws with
  | nil => exact absurd rfl hne
  | cons w ws ih =>
    obtain ⟨hw, hc⟩ := h w (by simp)
    cases ws with
    | nil => simp [pieces_of_unmarked hc, hw.trim_eq]
    | cons v ws =>
      rw [List.intercalate_cons_cons, List.append_assoc, List.cons_append,
        pieces_append_marked hc (by decide), List.map_cons, hw.trim_eq, List.singleton_append,
        map_trim_pieces_cons_blank (by decide) (by decide),
        ih (by simp) (fun u hu => h u (by simp [hu]))]

/-- Lines that each end with a mark, and the empty line after the last of them. -/
theorem pieces_ended {mark : Char} {ls : List (List Char)} (hm : p mark = true)
    (h : ∀ l ∈ ls, ∀ c ∈ l, p c = false) :
    pieces p (ls.flatMap (fun l => l ++ [mark])) = ls ++ [[]] := by
  induction ls with
  | nil => rfl
  | cons l ls ih =>
    rw [List.flatMap_cons, List.append_assoc, List.singleton_append,
      pieces_append_marked (h l (by simp)) hm, ih (fun k hk => h k (by simp [hk]))]
    rfl

/-- The first separator splits, whatever comes after it. -/
theorem splitFirst?_append {sep : Char} {a : List Char} (h : ∀ c ∈ a, c ≠ sep) (b : List Char) :
    splitFirst? sep (a ++ sep :: b) = some (a, b) := by
  have hp : ∀ c ∈ a, (c != sep) = true := fun c hc => by simpa using h c hc
  simp [splitFirst?, List.takeWhile_append_of_pos hp, List.dropWhile_append_of_pos hp]

theorem dropSuffix?_of_not_mem (h : c ∉ cs) : dropSuffix? c cs = none := by
  refine if_neg ?_
  intro hl
  exact h (List.mem_of_getLast? hl)

theorem not_blank_of_isDigit (h : c.isDigit = true) : isBlank c = false := by
  have hb : 48 ≤ c.toNat ∧ c.toNat ≤ 57 := by
    simpa [Char.isDigit, UInt32.le_iff_toNat_le] using h
  simp only [isBlank, Bool.or_eq_false_iff, Bool.and_eq_false_iff, decide_eq_false_iff_not,
    beq_eq_false_iff_ne]
  omega

variable {limit n : Nat}

theorem isDigit_of_mem_toDigits (h : c ∈ Nat.toDigits 10 n) : c.isDigit = true :=
  Nat.isDigit_of_mem_toDigits (by decide) (by decide) h

theorem solid_toDigits (n : Nat) : Solid (Nat.toDigits 10 n) :=
  .of_unblank Nat.toDigits_ne_nil (fun _ hc => not_blank_of_isDigit (isDigit_of_mem_toDigits hc))

/-- Digits are read as the number that they write. -/
theorem natural?_toDigits (n : Nat) : natural? (Nat.toDigits 10 n) = some n := by
  have hd : (Nat.toDigits 10 n).all Char.isDigit = true :=
    List.all_eq_true.mpr (fun _ => isDigit_of_mem_toDigits)
  have hn : ofDigits (Nat.toDigits 10 n) = n := Nat.ofDigitChars_toDigits (by decide) (by decide)
  simp [natural?, hd, hn, Nat.toDigits_ne_nil]

theorem naturalBelow?_toDigits (h : n < limit) :
    naturalBelow? limit (Nat.toDigits 10 n) = some n := by
  simp [naturalBelow?, natural?_toDigits, h]

theorem plainBelow?_toDigits (h : n < limit) :
    plainBelow? limit (Nat.toDigits 10 n) = some n := by
  unfold plainBelow?
  split
  · rename_i cs hs
    have hp : '+' ∈ Nat.toDigits 10 n := by simp [hs]
    exact absurd (isDigit_of_mem_toDigits hp) (by decide)
  · exact naturalBelow?_toDigits h

end Polysynth.Text
