import Polysynth.Proofs.LoadedSong

namespace Polysynth.Score

namespace Line

def entry? (line : Line) : Option (List Char) :=
  match line.text with
  | '>' :: entry => some entry
  | _ => none

def inBody (line : Line) : Bool := line.text.head? != some '#' && line.text.head? != some '>'

end Line

section FirstError

variable {α β γ ε σ : Type} {check : α → Except ε γ} {run : σ → List α → Except ε β}

theorem isOk_or_error (x : Except ε α) : x.isOk = true ∨ ∃ e, x = .error e := by
  cases x with
  | ok a => exact .inl rfl
  | error e => exact .inr ⟨e, rfl⟩

theorem map_error {x : Except ε α} {f : α → β} {e : ε} (h : x.map f = .error e) :
    x = .error e := by
  cases x with
  | error d => cases h; rfl
  | ok a => cases h

theorem map_eq_error_iff {x : Except ε α} {f : α → β} {e : ε} :
    x.map f = .error e ↔ x = .error e :=
  ⟨map_error, fun h => by rw [h]; rfl⟩

theorem isOk_map (x : Except ε α) (f : α → β) : (x.map f).isOk = x.isOk := by
  cases x <;> rfl

/-- A pass over a list that stops at the first item which fails a check, with the error of that
check. The state that it carries along has no part in this. -/
structure Checks (check : α → Except ε γ) (run : σ → List α → Except ε β) : Prop where
  nil : ∀ s, (run s []).isOk = true
  error : ∀ s a as e, check a = .error e → run s (a :: as) = .error e
  ok : ∀ s a as, (check a).isOk = true →
    ∃ (s' : σ) (f : β → β), run s (a :: as) = (run s' as).map f

/-- The error of a pass is that of the first item that fails, and all before it passed. -/
theorem Checks.error_iff (h : Checks check run) (s : σ) (as : List α) (e : ε) :
    run s as = .error e ↔
      ∃ i a, as[i]? = some a ∧ check a = .error e ∧ ∀ b ∈ as.take i, (check b).isOk = true := by
  induction as generalizing s with
  | nil =>
    constructor
    · intro hr
      have hn := h.nil s
      rw [hr] at hn
      cases hn
    · intro ⟨i, a, ha, _⟩
      simp at ha
  | cons a as ih =>
    rcases isOk_or_error (check a) with ha | ⟨d, hd⟩
    · obtain ⟨s', f, hs⟩ := h.ok s a as ha
      rw [hs, map_eq_error_iff, ih s']
      constructor
      · intro ⟨i, b, hb, he, hall⟩
        exact ⟨i + 1, b, hb, he, List.forall_mem_cons.mpr ⟨ha, hall⟩⟩
      · intro ⟨i, b, hb, he, hall⟩
        cases i with
        | zero =>
          obtain rfl := Option.some.inj hb
          rw [he] at ha
          cases ha
        | succ i => exact ⟨i, b, hb, he, (List.forall_mem_cons.mp hall).2⟩
    · rw [h.error s a as d hd]
      constructor
      · intro he
        obtain rfl := Except.error.inj he
        exact ⟨0, a, rfl, hd, nofun⟩
      · intro ⟨i, b, hb, he, hall⟩
        cases i with
        | zero =>
          obtain rfl := Option.some.inj hb
          rw [Except.error.inj (hd.symm.trans he)]
        | succ i =>
          have hok := hall a List.mem_cons_self
          rw [hd] at hok
          cases hok

theorem Checks.isOk_iff (h : Checks check run) (s : σ) (as : List α) :
    (run s as).isOk = true ↔ ∀ a ∈ as, (check a).isOk = true := by
  induction as generalizing s with
  | nil => simp [h.nil s]
  | cons a as ih =>
    rw [List.forall_mem_cons]
    rcases isOk_or_error (check a) with ha | ⟨d, hd⟩
    · obtain ⟨s', f, hs⟩ := h.ok s a as ha
      rw [hs, isOk_map, ih s']
      exact ⟨fun hall => ⟨ha, hall⟩, And.right⟩
    · rw [h.error s a as d hd, hd]
      exact ⟨nofun, And.left⟩

end FirstError

theorem Line.entry?_eq_some_iff {line : Line} {entry : List Char} :
    line.entry? = some entry ↔ line.text = '>' :: entry := by
  unfold Line.entry?
  split
  · rename_i text ht
    rw [ht]
    simp
  · rename_i hn
    exact ⟨nofun, fun ht => absurd ht (hn entry)⟩

theorem Line.entry?_of_inBody {line : Line} (h : line.inBody = true) : line.entry? = none := by
  unfold Line.entry?
  split
  · rename_i entry ht
    simp [Line.inBody, ht] at h
  · rfl

section Sift

variable {h h' : Header} {line : Line} {ls body : List Line} {entry : List Char}

theorem sift_cons_entry (h : Header) (he : line.entry? = some entry) (ls : List Line) :
    sift h (line :: ls) =
      match h.read entry with
      | .error fault => .error (.header line.number fault)
      | .ok h => sift h ls := by
  rw [sift, Line.entry?_eq_some_iff.mp he]
  rfl

/-- A line that is no header entry is left to the body, unless it is a comment. -/
theorem sift_cons_other (h : Header) (he : line.entry? = none) (ls : List Line) :
    sift h (line :: ls) =
      (sift h ls).map (fun (h, body) => (h, if line.inBody then line :: body else body)) := by
  rw [sift]
  split
  · rename_i ht
    have hb : line.inBody = false := by simp [Line.inBody, ht]
    rw [hb]
    cases sift h ls <;> rfl
  · rename_i ht
    rw [Line.entry?_eq_some_iff.mpr ht] at he
    cases he
  · rename_i hc hm
    have hb : line.inBody = true := by
      unfold Line.inBody
      cases ht : line.text with
      | nil => rfl
      | cons c cs =>
        have h1 : c ≠ '#' := fun h => hc cs (by rw [ht, h])
        have h2 : c ≠ '>' := fun h => hm cs (by rw [ht, h])
        simp [h1, h2]
    rw [hb]
    rfl

/-- Comments are passed, header lines are read, and the rest is the body. -/
theorem sift_eq_ok_iff : sift h ls = .ok (h', body) ↔
    (ls.filterMap Line.entry?).foldlM Header.read h = .ok h' ∧ body = ls.filter Line.inBody := by
  induction ls generalizing h body with
  | nil =>
    rw [sift, List.filterMap_nil, List.foldlM_nil, List.filter_nil]
    simp [pure, Except.pure, eq_comm]
  | cons line ls ih =>
    cases he : line.entry? with
    | some entry =>
      have hb : ¬ line.inBody = true := fun hb => by
        rw [Line.entry?_of_inBody hb] at he
        cases he
      rw [sift_cons_entry h he, List.filterMap_cons_some he, List.foldlM_cons,
        List.filter_cons_of_neg hb]
      cases h.read entry with
      | error fault => simp [bind, Except.bind]
      | ok next => exact ih
    | none =>
      rw [sift_cons_other h he, List.filterMap_cons_none he, List.filter_cons]
      constructor
      · intro hs
        obtain ⟨⟨next, rest⟩, hr, hp⟩ := map_ok hs
        obtain ⟨rfl, rfl⟩ := Prod.mk.inj hp
        obtain ⟨hf, rfl⟩ := ih.mp hr
        exact ⟨hf, rfl⟩
      · intro ⟨hf, hb⟩
        rw [ih.mpr ⟨hf, rfl⟩, hb]
        rfl

theorem sift_of_read (hr : (ls.filterMap Line.entry?).foldlM Header.read h = .ok h') :
    sift h ls = .ok (h', ls.filter Line.inBody) :=
  sift_eq_ok_iff.mpr ⟨hr, rfl⟩

end Sift

section Encoding

variable (timing : Timing)

def checkWord (number : Nat) (w : List Char) : Except Error (List UInt8) :=
  (Token.encode timing w).mapError (.token number (String.ofList w))

theorem checkWord_error_iff {number : Nat} {w : List Char} {e : Error} :
    checkWord timing number w = .error e ↔
      ∃ fault, Token.encode timing w = .error fault ∧ e = .token number (String.ofList w) fault := by
  unfold checkWord
  cases Token.encode timing w with
  | ok bytes => exact ⟨nofun, fun ⟨_, hf, _⟩ => nomatch hf⟩
  | error fault =>
    constructor
    · intro h
      exact ⟨fault, rfl, (Except.error.inj h).symm⟩
    · intro ⟨_, hf, he⟩
      cases hf
      rw [he]
      rfl

theorem isOk_checkWord (number : Nat) (w : List Char) :
    (checkWord timing number w).isOk = (Token.encode timing w).isOk := by
  unfold checkWord
  cases Token.encode timing w <;> rfl

/-- The tokens of a line, the lines of a track and the tracks are encoded by passes of one kind. -/
theorem checks_words (number : Nat) :
    Checks (checkWord timing number) (fun (_ : Unit) ws => encodeWords timing number ws []) where
  nil _ := rfl
  error _ w ws e hw := by
    unfold checkWord at hw
    cases he : Token.encode timing w with
    | ok bytes => rw [he] at hw; cases hw
    | error fault =>
      rw [he] at hw
      simp only [encodeWords_cons, he]
      exact hw
  ok _ w ws hw := by
    unfold checkWord at hw
    cases he : Token.encode timing w with
    | ok bytes => exact ⟨(), fun more => bytes ++ more, by simp only [encodeWords_cons, he]⟩
    | error fault => rw [he] at hw; cases hw

theorem checks_lines :
    Checks (fun line => encodeWords timing line.number (Text.words line.text) [])
      (fun (_ : Unit) ls => encodeLines timing ls []) where
  nil _ := rfl
  error _ line ls e hw := by
    simp only [encodeLines_cons, hw]
  ok _ line ls hw := by
    cases he : encodeWords timing line.number (Text.words line.text) [] with
    | ok bytes => exact ⟨(), fun more => bytes ++ more, by simp only [encodeLines_cons, he]⟩
    | error e => rw [he] at hw; cases hw

theorem checks_tracks :
    Checks (fun part : List Line × Generator => encodeLines timing part.1 [])
      (fun _ : Unit => encodeTracks timing) where
  nil _ := rfl
  error _ part parts e hl := by
    obtain ⟨ls, g⟩ := part
    simp only [encodeTracks, hl]
  ok _ part parts hl := by
    obtain ⟨ls, g⟩ := part
    cases he : encodeLines timing ls [] with
    | ok data =>
      exact ⟨(), fun ts => { data := data, generator := g } :: ts, by simp only [encodeTracks, he]⟩
    | error e => rw [he] at hl; cases hl

variable {timing}

/-- Tokens are all that can be refused in the tracks. -/
theorem encodeTracks_error {parts : List (List Line × Generator)} {e : Error}
    (h : encodeTracks timing parts = .error e) :
    ∃ number word fault, e = .token number word fault := by
  obtain ⟨_, part, _, hl, _⟩ := ((checks_tracks timing).error_iff () _ _).mp h
  obtain ⟨_, line, _, hw, _⟩ := ((checks_lines timing).error_iff () _ _).mp hl
  obtain ⟨_, word, _, hc, _⟩ := ((checks_words timing line.number).error_iff () _ _).mp hw
  obtain ⟨fault, _, rfl⟩ := (checkWord_error_iff timing).mp hc
  exact ⟨_, _, fault, rfl⟩

end Encoding

end Polysynth.Score
