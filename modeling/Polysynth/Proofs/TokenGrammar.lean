import Mathlib.Algebra.Group.Nat.Defs
import Mathlib.Data.List.TakeWhile
import Polysynth.Proofs.Engraving

namespace Polysynth

namespace Text

variable {c sep : Char} {cs a b base : List Char}

theorem dropSuffix?_eq_some_iff : dropSuffix? c cs = some base ↔ cs = base ++ [c] := by
  unfold dropSuffix?
  constructor
  · intro h
    split at h
    · rename_i hl
      obtain ⟨ys, rfl⟩ := List.getLast?_eq_some_iff.mp hl
      rw [List.dropLast_concat] at h
      cases h
      rfl
    · cases h
  · rintro rfl
    rw [List.getLast?_concat, if_pos rfl, List.dropLast_concat]

theorem splitFirst?_of_not_mem (h : sep ∉ cs) : splitFirst? sep cs = none := by
  have hp : ∀ c ∈ cs, (c != sep) = true := by
    intro c hc
    simpa using List.forall_mem_ne'.mpr h c hc
  rw [splitFirst?, List.dropWhile_eq_nil_iff.mpr hp]

theorem splitFirst?_eq_some_iff : splitFirst? sep cs = some (a, b) ↔ cs = a ++ sep :: b ∧ sep ∉ a := by
  constructor
  · intro h
    by_cases hm : sep ∈ cs
    · obtain ⟨before, after, rfl, hn⟩ := List.eq_append_cons_of_mem hm
      rw [splitFirst?_append (List.forall_mem_ne'.mpr hn)] at h
      cases h
      exact ⟨rfl, hn⟩
    · rw [splitFirst?_of_not_mem hm] at h
      cases h
  · rintro ⟨rfl, hn⟩
    exact splitFirst?_append (List.forall_mem_ne'.mpr hn) b

end Text

namespace Score

structure Numeral (ds : List Char) (n : Nat) : Prop where
  filled : ds ≠ []
  digits : ∀ c ∈ ds, c.isDigit = true
  value : Nat.ofDigitChars 10 ds 0 = n
  bound : n < 2 ^ 32

inductive Spells : Char → List Char → Length → Prop where
  | ticks {ds : List Char} {n : Nat} (number : Numeral ds n) : Spells '-' ds (.ticks n)
  | fraction {ds : List Char} {n : Nat} (number : Numeral ds n) : Spells '=' ds (.fraction n)
  | dotted {ds : List Char} {n : Nat} (number : Numeral ds n) :
      Spells '=' (ds ++ ['.']) (.dotted n)
  | tuplet {ds es : List Char} {n m : Nat} (number : Numeral ds n) (parts : Numeral es m) :
      Spells '=' (ds ++ ',' :: es) (.tuplet n m)

/-- How many ticks a length lasts when a whole note lasts `whole`. -/
inductive Lasts (whole : Nat) : Length → Nat → Prop where
  | ticks (n : Nat) : Lasts whole (.ticks n) n
  | fraction {n : Nat} (divisor : n ≠ 0) : Lasts whole (.fraction n) (whole / n)
  | dotted {n : Nat} (divisor : 2 * n ≠ 0) (low : 2 * n < 2 ^ 32) (high : 3 * whole < 2 ^ 32) :
      Lasts whole (.dotted n) (3 * whole / (2 * n))
  | tuplet {n m : Nat} (divisor : n * m ≠ 0) (low : n * m < 2 ^ 32) :
      Lasts whole (.tuplet n m) (whole / (n * m))

variable {ds text : List Char} {sign : Char} {l : Length} {n whole ticks : Nat}

theorem naturalBelow_iff : Text.naturalBelow? Length.limit ds = some n ↔ Numeral ds n := by
  rw [Text.naturalBelow?, Option.filter_eq_some_iff, Text.natural?]
  constructor
  · rintro ⟨hn, hlt⟩
    split at hn
    · rename_i hd
      simp only [Bool.and_eq_true, Bool.not_eq_true', List.isEmpty_eq_false_iff,
        List.all_eq_true] at hd
      cases hn
      exact ⟨hd.1, hd.2, rfl, of_decide_eq_true hlt⟩
    · cases hn
  · rintro ⟨hne, hd, rfl, hlt⟩
    refine ⟨if_pos ?_, decide_eq_true hlt⟩
    simpa [hne] using hd

/-- Signs are not digits, so none is taken for part of a number. -/
theorem Numeral.not_mem (h : Numeral ds n) {c : Char} (hc : c.isDigit = false) : c ∉ ds := by
  intro hm
  rw [h.digits c hm] at hc
  cases hc

/-- A length is read exactly where the grammar has it. -/
theorem read_iff_spells : Length.read? sign text = some l ↔ Spells sign text l := by
  constructor
  · intro h
    unfold Length.read? at h
    split at h
    · obtain ⟨n, hn, rfl⟩ := Option.map_eq_some_iff.mp h
      exact .ticks (naturalBelow_iff.mp hn)
    · split at h
      · rename_i base hb
        obtain ⟨n, hn, rfl⟩ := Option.map_eq_some_iff.mp h
        rw [Text.dropSuffix?_eq_some_iff.mp hb]
        exact .dotted (naturalBelow_iff.mp hn)
      · split at h
        · rename_i a b hs
          obtain ⟨n, hn, h⟩ := Option.bind_eq_some_iff.mp h
          obtain ⟨m, hm, h⟩ := Option.bind_eq_some_iff.mp h
          cases h
          rw [(Text.splitFirst?_eq_some_iff.mp hs).1]
          exact .tuplet (naturalBelow_iff.mp hn) (naturalBelow_iff.mp hm)
        · obtain ⟨n, hn, rfl⟩ := Option.map_eq_some_iff.mp h
          exact .fraction (naturalBelow_iff.mp hn)
    · cases h
  · intro h
    -- Digits are none of the marks, so it does not matter which mark the reader looks for first.
    cases h with
    | ticks number => simp [Length.read?, naturalBelow_iff.mpr number]
    | fraction number =>
      have hdot := Text.dropSuffix?_of_not_mem (number.not_mem (c := '.') (by decide))
      have hcomma := Text.splitFirst?_of_not_mem (number.not_mem (c := ',') (by decide))
      simp [Length.read?, hdot, hcomma, naturalBelow_iff.mpr number]
    | @dotted ds _ number =>
      have hdot : Text.dropSuffix? '.' (ds ++ ['.']) = some ds :=
        Text.dropSuffix?_eq_some_iff.mpr rfl
      simp [Length.read?, hdot, naturalBelow_iff.mpr number]
    | @tuplet ds es _ _ number parts =>
      have hdot : Text.dropSuffix? '.' (ds ++ ',' :: es) = none := by
        apply Text.dropSuffix?_of_not_mem
        simp [number.not_mem (c := '.') (by decide), parts.not_mem (c := '.') (by decide)]
      have hcomma : Text.splitFirst? ',' (ds ++ ',' :: es) = some (ds, es) :=
        Text.splitFirst?_eq_some_iff.mpr ⟨rfl, number.not_mem (by decide)⟩
      simp [Length.read?, hdot, hcomma, naturalBelow_iff.mpr number, naturalBelow_iff.mpr parts]

theorem Spells.plain (h : Spells sign text l) :
    (sign = '-' ∨ sign = '=') ∧ text ≠ [] ∧ '+' ∉ text := by
  cases h with
  | ticks number => exact ⟨.inl rfl, number.filled, number.not_mem (by decide)⟩
  | fraction number => exact ⟨.inr rfl, number.filled, number.not_mem (by decide)⟩
  | dotted number =>
    refine ⟨.inr rfl, by simp, ?_⟩
    simpa using number.not_mem (c := '+') (by decide)
  | tuplet number parts =>
    refine ⟨.inr rfl, by simp, ?_⟩
    simpa using ⟨number.not_mem (c := '+') (by decide), parts.not_mem (c := '+') (by decide)⟩

theorem quotient_iff {n d t : Nat} : Length.quotient? n d = some t ↔ d ≠ 0 ∧ n / d = t := by
  unfold Length.quotient?
  constructor
  · intro h
    split at h
    · cases h
    · rename_i h0
      cases h
      exact ⟨h0, rfl⟩
  · rintro ⟨h0, rfl⟩
    exact if_neg h0

theorem bounded_iff {n m : Nat} : Length.bounded? n = some m ↔ n < 2 ^ 32 ∧ n = m := by
  unfold Length.bounded?
  constructor
  · intro h
    split at h
    · rename_i hlt
      cases h
      exact ⟨hlt, rfl⟩
    · cases h
  · rintro ⟨hlt, rfl⟩
    exact if_pos hlt

/-- A length has no ticks where it would divide by zero or leave 32 bits on the way. -/
theorem ticks_iff_lasts : Length.ticks? whole l = some ticks ↔ Lasts whole l ticks := by
  constructor
  · intro h
    cases l with
    | ticks =>
      cases h
      exact .ticks _
    | fraction n =>
      obtain ⟨h0, rfl⟩ := quotient_iff.mp h
      exact .fraction h0
    | dotted n =>
      obtain ⟨high, hh, h⟩ := Option.bind_eq_some_iff.mp h
      obtain ⟨low, hl, h⟩ := Option.bind_eq_some_iff.mp h
      obtain ⟨hhigh, rfl⟩ := bounded_iff.mp hh
      obtain ⟨hlow, rfl⟩ := bounded_iff.mp hl
      obtain ⟨h0, rfl⟩ := quotient_iff.mp h
      exact .dotted h0 hlow hhigh
    | tuplet n m =>
      obtain ⟨low, hl, h⟩ := Option.bind_eq_some_iff.mp h
      obtain ⟨hlow, rfl⟩ := bounded_iff.mp hl
      obtain ⟨h0, rfl⟩ := quotient_iff.mp h
      exact .tuplet h0 hlow
  · intro h
    cases h with
    | ticks n => rfl
    | fraction divisor => exact quotient_iff.mpr ⟨divisor, rfl⟩
    | dotted divisor low high =>
      simp only [Length.ticks?, bounded_iff.mpr ⟨high, rfl⟩, bounded_iff.mpr ⟨low, rfl⟩]
      exact quotient_iff.mpr ⟨divisor, rfl⟩
    | tuplet divisor low =>
      simp only [Length.ticks?, bounded_iff.mpr ⟨low, rfl⟩]
      exact quotient_iff.mpr ⟨divisor, rfl⟩

theorem toNat_ofNat_of_le {n : Nat} (h : n ≤ 255) : (UInt8.ofNat n).toNat = n :=
  UInt8.toNat_ofNat_of_lt (Nat.lt_succ_of_le h)

/-- The naturals of an octave, and how many semitones each lies above its `c`. -/
def naturals : List (Char × Nat) :=
  [('c', 0), ('d', 2), ('e', 4), ('f', 5), ('g', 7), ('a', 9), ('b', 11)]

/-- The letters of pitches: each natural, and as a capital the sharp above it. -/
def letters : List (Char × Nat) := naturals.flatMap (fun (c, n) => [(c, n), (c.toUpper, n + 1)])

inductive Sounds : List Char → Option Nat → Prop where
  | rest : Sounds ['/'] none
  | pitch {letter : Char} {n octave : Nat} (known : (letter, n) ∈ letters)
      (within : octave ≤ 5) : Sounds [letter, octave.digitChar] (some (n + 12 * octave))

theorem semitone_le {letter : Char} {n : Nat} (h : (letter, n) ∈ letters) : n ≤ 12 := by
  have hall : letters.all (fun entry => entry.2 ≤ 12) = true := by decide
  exact of_decide_eq_true (List.all_eq_true.mp hall _ h)

theorem semitone_iff {letter : Char} {s : UInt8} :
    semitone? letter = some s ↔ (letter, s.toNat) ∈ letters := by
  constructor
  · intro h
    unfold semitone? at h
    split at h
    all_goals cases h
    all_goals decide
  · intro h
    have hall : letters.all (fun entry => semitone? entry.1 == some (UInt8.ofNat entry.2)) = true := by
      decide
    simpa using List.all_eq_true.mp hall _ h

theorem octave_iff {c : Char} {o : UInt8} :
    octave? c = some o ↔ o.toNat ≤ 5 ∧ c = o.toNat.digitChar := by
  constructor
  · intro h
    unfold octave? at h
    split at h
    · rename_i hc
      have hl : 48 ≤ c.toNat := hc.1
      have hu : c.toNat ≤ 53 := hc.2
      have ho : (UInt8.ofNat (c.toNat - 48)).toNat = c.toNat - 48 :=
        toNat_ofNat_of_le (by omega)
      obtain rfl : UInt8.ofNat (c.toNat - 48) = o := Option.some.inj h
      rw [ho]
      refine ⟨by omega, ?_⟩
      apply Char.toNat_inj.mp
      rw [Nat.toNat_digitChar_of_lt_ten (by omega)]
      omega
    · cases h
  · rintro ⟨ho, rfl⟩
    have hall : ∀ k ≤ 5, octave? (Nat.digitChar k) = some (UInt8.ofNat k) := by decide
    simpa using hall _ ho

/-- The highest name is one above the highest pitch. -/
theorem Sounds.le {name : List Char} {index : Nat} (h : Sounds name (some index)) :
    index ≤ 72 := by
  cases h with
  | pitch known within =>
    have hn := semitone_le known
    omega

theorem Sounds.bytes {name : List Char} {index : Nat} (h : Sounds name (some index)) :
    (String.ofList name).utf8ByteSize = 2 := by
  cases h with
  | @pitch letter n octave known within =>
    have hletters : letters.all (fun entry => entry.1.utf8Size == 1) = true := by decide
    have hoctaves : ∀ k ≤ 5, (Nat.digitChar k).utf8Size = 1 := by decide
    have hl : letter.utf8Size = 1 := by simpa using List.all_eq_true.mp hletters _ known
    simp [hl, hoctaves octave within]

theorem pitch_iff_sounds {name : List Char} {p : UInt8} :
    pitch? name = some p ↔ ∃ index, Sounds name (some index) ∧ p = UInt8.ofNat index := by
  constructor
  · intro h
    unfold pitch? at h
    split at h
    · obtain ⟨s, hs, h⟩ := Option.bind_eq_some_iff.mp h
      obtain ⟨o, ho, h⟩ := Option.bind_eq_some_iff.mp h
      cases h
      obtain ⟨hle, rfl⟩ := octave_iff.mp ho
      refine ⟨s.toNat + 12 * o.toNat, .pitch (semitone_iff.mp hs) hle, ?_⟩
      simp
    · cases h
  · rintro ⟨index, h, rfl⟩
    cases h with
    | @pitch letter n octave known within =>
      have hn : (UInt8.ofNat n).toNat = n :=
        toNat_ofNat_of_le (Nat.le_trans (semitone_le known) (by decide))
      have ho : (UInt8.ofNat octave).toNat = octave :=
        toNat_ofNat_of_le (Nat.le_trans within (by decide))
      have hs : semitone? letter = some (UInt8.ofNat n) := by
        rw [semitone_iff, hn]
        exact known
      have hd : octave? octave.digitChar = some (UInt8.ofNat octave) := by
        rw [octave_iff, ho]
        exact ⟨within, rfl⟩
      simp [pitch?, hs, hd]

namespace Token

variable {timing : Timing} {cs name after : List Char} {pitch : Option UInt8} {index : Option Nat}

theorem sound_iff :
    sound? cs = some (pitch, after) ↔
      ∃ name index, cs = name ++ after ∧ Sounds name index ∧ pitch = index.map UInt8.ofNat := by
  constructor
  · intro h
    unfold sound? at h
    split at h
    · cases h
      exact ⟨['/'], none, rfl, .rest, rfl⟩
    · rename_i letter octave tail _
      obtain ⟨p, hp, h⟩ := Option.map_eq_some_iff.mp h
      cases h
      obtain ⟨index, hs, rfl⟩ := pitch_iff_sounds.mp hp
      exact ⟨[letter, octave], some index, rfl, hs, rfl⟩
    · cases h
  · rintro ⟨name, index, rfl, hs, rfl⟩
    cases index with
    | none =>
      cases hs
      rfl
    | some index =>
      have hp := pitch_iff_sounds.mpr ⟨index, hs, rfl⟩
      obtain ⟨letter, octave, s, _, rfl, hl, _⟩ := pitch_cases hp
      have hne : letter ≠ '/' := (semitone_not_blank hl).2.1
      simp [sound?, hp]

def plus (cut : Bool) : List Char := if cut then ['+'] else []

/-- A token that was read is put together again from its parts. -/
theorem read_sounds {t : Token} (h : read? cs = some t) :
    ∃ name index, Sounds name index ∧ t.pitch = index.map UInt8.ofNat ∧
      cs = name ++ t.sign :: t.length ++ plus t.cut := by
  obtain ⟨⟨pitch, tail⟩, hs, h⟩ := Option.bind_eq_some_iff.mp h
  obtain ⟨name, index, rfl, hn, rfl⟩ := sound_iff.mp hs
  refine ⟨name, index, hn, ?_⟩
  cases tail with
  | nil => cases h
  | cons sign text =>
    dsimp only at h
    split at h
    · split at h
      · cases h
      · cases h
        cases hd : Text.dropSuffix? '+' text with
        | none => simp [plus]
        | some base => simp [plus, Text.dropSuffix?_eq_some_iff.mp hd]
    · cases h

theorem read_of_spells (hn : Sounds name index) (hl : Spells sign text l) (cut : Bool) :
    read? (name ++ sign :: text ++ plus cut) =
      some { pitch := index.map UInt8.ofNat, sign := sign, length := text, cut := cut } := by
  obtain ⟨hsign, hne, hplus⟩ := hl.plain
  have hs : sound? (name ++ sign :: text ++ plus cut) =
      some (index.map UInt8.ofNat, sign :: (text ++ plus cut)) :=
    sound_iff.mpr ⟨name, index, by simp, hn, rfl⟩
  unfold read?
  rw [hs]
  cases cut with
  | false =>
    have hd := Text.dropSuffix?_of_not_mem hplus
    simp [plus, hsign, hd, hne]
  | true =>
    have hd : Text.dropSuffix? '+' (text ++ ['+']) = some text :=
      Text.dropSuffix?_eq_some_iff.mpr rfl
    simp [plus, hsign, hd, hne]

/-- The length of a token less its cut is one that its event can have, and its pitch is in the
table. -/
structure InRange (index : Option Nat) (ticks cut : Nat) : Prop where
  pitch : ∀ p ∈ index, p ≤ 71
  least : 1 ≤ (ticks : Int) - cut
  most : (ticks : Int) - cut ≤ if index.isSome then 255 else 127

def sounding (index : Option Nat) (ticks : Nat) : Event :=
  match index with
  | none => .rest (UInt8.ofNat ticks)
  | some p => .note (UInt8.ofNat p) (UInt8.ofNat ticks)

/-- What a token means: its event, and the rest that takes the time of its cut. -/
def meaning (index : Option Nat) (ticks cut : Nat) : List Event :=
  sounding index (ticks - cut) :: if cut = 0 then [] else [.rest (UInt8.ofNat cut)]

/-- The texts of tokens, with the pitch of each, its ticks, and those of them that it is cut by. -/
inductive Written (timing : Timing) : List Char → Option Nat → Nat → Nat → Prop where
  | token {name text : List Char} {sign : Char} {index : Option Nat} {l : Length} {ticks : Nat}
      (sound : Sounds name index) (length : Spells sign text l)
      (lasts : Lasts timing.ticksPerWhole l ticks) (cut : Bool)
      (range : InRange index ticks (if cut then timing.cutTicks else 0)) :
      Written timing (name ++ sign :: text ++ plus cut) index ticks
        (if cut then timing.cutTicks else 0)

theorem event_iff {ticks cut : Nat} {e : Event} (hi : ∀ p ∈ index, p ≤ 255) :
    event (index.map UInt8.ofNat) ((ticks : Int) - cut) = .ok e ∧ (ticks : Int) - cut ≠ 0 ↔
      InRange index ticks cut ∧ e = sounding index (ticks - cut) := by
  have ht : ((ticks : Int) - cut).toNat = ticks - cut := by omega
  cases index with
  | none =>
    simp only [Option.map_none, event, maxRestTicks, ht]
    constructor
    · rintro ⟨h, h0⟩
      split at h
      · rename_i hr
        cases h
        exact ⟨⟨by simp, by omega, by simpa using hr.2⟩, rfl⟩
      · cases h
    · rintro ⟨⟨_, hl, hm⟩, rfl⟩
      simp only [Option.isSome_none, Bool.false_eq_true, if_false] at hm
      refine ⟨if_pos ⟨by omega, hm⟩, by omega⟩
  | some p =>
    have hp : (UInt8.ofNat p).toNat = p := toNat_ofNat_of_le (hi p rfl)
    simp only [Option.map_some, event, pitchCount, ht, hp]
    constructor
    · rintro ⟨h, h0⟩
      split at h
      · cases h
      · split at h
        · rename_i hlt hr
          cases h
          refine ⟨⟨?_, by omega, by simpa using hr.2⟩, rfl⟩
          intro q hq
          cases hq
          omega
        · cases h
    · rintro ⟨⟨hq, hl, hm⟩, rfl⟩
      have hq : ¬ 72 ≤ p := Nat.not_le.mpr (Nat.lt_succ_of_le (hq p rfl))
      simp only [Option.isSome_some, if_true] at hm
      refine ⟨?_, by omega⟩
      rw [if_neg hq, if_pos ⟨by omega, hm⟩]
      rfl

theorem events_iff {t : Token} {es : List Event} :
    t.events timing = .ok es ↔
      ∃ l ticks e, Spells t.sign t.length l ∧ Lasts timing.ticksPerWhole l ticks ∧
        event t.pitch ((ticks : Int) - t.cutBy timing) = .ok e ∧
        (ticks : Int) - t.cutBy timing ≠ 0 ∧
        es = e :: if t.cutBy timing = 0 then [] else [.rest (UInt8.ofNat (t.cutBy timing))] := by
  constructor
  · intro h
    unfold Token.events at h
    split at h
    · cases h
    · rename_i ticks hb
      obtain ⟨l, hl, ht⟩ := Option.bind_eq_some_iff.mp hb
      dsimp only at h
      split at h
      · cases h
      · rename_i e he
        split at h
        · cases h
        · rename_i h0
          refine ⟨l, ticks, e, read_iff_spells.mp hl, ticks_iff_lasts.mp ht, he, h0, ?_⟩
          split at h
          · cases h
            simp [*]
          · cases h
            simp [*]
  · rintro ⟨l, ticks, e, hl, ht, he, h0, rfl⟩
    have hb : (Length.read? t.sign t.length).bind (Length.ticks? timing.ticksPerWhole) =
        some ticks := by
      rw [read_iff_spells.mpr hl]
      exact ticks_iff_lasts.mpr ht
    unfold Token.events
    simp only [hb, he, h0, if_false]
    split <;> rfl

/-- A text is encoded just where the grammar has it as a token, as the events that it means. -/
theorem encode_eq_ok_iff {bytes : List UInt8} :
    encode timing cs = .ok bytes ↔
      ∃ index ticks cut, Written timing cs index ticks cut ∧
        bytes = (meaning index ticks cut).flatMap Event.encode := by
  constructor
  · intro h
    unfold encode at h
    split at h
    · cases h
    · rename_i t hr
      obtain ⟨es, hes, rfl⟩ := map_ok h
      obtain ⟨name, index, hn, hp, rfl⟩ := read_sounds hr
      obtain ⟨l, ticks, e, hl, ht, he, h0, rfl⟩ := events_iff.mp hes
      have hi : ∀ p ∈ index, p ≤ 255 := by
        rintro p rfl
        exact Nat.le_trans hn.le (by decide)
      rw [hp] at he
      obtain ⟨hrange, rfl⟩ := (event_iff hi).mp ⟨he, h0⟩
      exact ⟨index, ticks, _, .token hn hl ht t.cut hrange, rfl⟩
  · rintro ⟨index, ticks, _, hw, rfl⟩
    cases hw with
    | @token name text sign index l ticks hn hl ht cut hrange =>
      have hi : ∀ p ∈ index, p ≤ 255 := fun p hp => Nat.le_trans (hrange.pitch p hp) (by decide)
      obtain ⟨he, h0⟩ := (event_iff hi).mpr ⟨hrange, rfl⟩
      have hes : Token.events timing
          { pitch := index.map UInt8.ofNat, sign := sign, length := text, cut := cut } =
          .ok (meaning index ticks (if cut then timing.cutTicks else 0)) :=
        events_iff.mpr ⟨l, ticks, _, hl, ht, he, h0, rfl⟩
      unfold encode
      rw [read_of_spells hn hl cut]
      exact congrArg (Except.map (fun es => es.flatMap Event.encode)) hes

theorem Written.range {ticks cut : Nat} (hw : Written timing cs index ticks cut) :
    InRange index ticks cut ∧ cut ≤ timing.cutTicks := by
  cases hw with
  | token _ _ _ cut hrange =>
    refine ⟨hrange, ?_⟩
    split
    · exact Nat.le_refl _
    · exact Nat.zero_le _

namespace InRange

variable {ticks cut : Nat}

theorem ticks_le (h : InRange index ticks cut) : ticks - cut ≤ 255 := by
  have hm := h.most
  split at hm
  · omega
  · omega

theorem ticks_sounding (h : InRange index ticks cut) :
    (sounding index (ticks - cut)).ticks.toNat = ticks - cut := by
  cases index with
  | none => exact toNat_ofNat_of_le h.ticks_le
  | some p => exact toNat_ofNat_of_le h.ticks_le

theorem sounding_encodable (h : InRange index ticks cut) :
    (sounding index (ticks - cut)).Encodable := by
  cases index with
  | none =>
    have hm : (ticks : Int) - cut ≤ 127 := h.most
    change (UInt8.ofNat (ticks - cut)).toNat ≤ 127
    rw [toNat_ofNat_of_le h.ticks_le]
    omega
  | some p =>
    have hp : p ≤ 71 := h.pitch p rfl
    change (UInt8.ofNat p).toNat < 128
    rw [toNat_ofNat_of_le (Nat.le_trans hp (by decide))]
    omega

/-- The parts of a meaning can be told apart in a stream. -/
theorem meaning_encodable (h : InRange index ticks cut) (hc : cut ≤ maxRestTicks) :
    ∀ e ∈ meaning index ticks cut, e.Encodable := by
  intro e he
  rcases List.mem_cons.mp he with rfl | he
  · exact h.sounding_encodable
  · split at he
    · cases he
    · rw [List.mem_singleton.mp he]
      change (UInt8.ofNat cut).toNat ≤ maxRestTicks
      rwa [toNat_ofNat_of_le (Nat.le_trans hc (by decide))]

/-- Cut or not, a token takes up all of its ticks. -/
theorem ticks_meaning (h : InRange index ticks cut) (hc : cut ≤ maxRestTicks) :
    totalTicks (meaning index ticks cut) = ticks := by
  have hl := h.least
  unfold totalTicks meaning
  rw [List.foldr_cons, h.ticks_sounding]
  split
  · rename_i h0
    rw [List.foldr_nil, h0]
    exact Nat.sub_zero _
  · have hr : (Event.rest (UInt8.ofNat cut)).ticks.toNat = cut :=
      toNat_ofNat_of_le (Nat.le_trans hc (by decide))
    rw [List.foldr_cons, List.foldr_nil, hr]
    omega

/-- A single token never takes the count of a stream beyond 32 bits. -/
theorem ticks_lt (h : InRange index ticks cut) (hc : cut ≤ maxRestTicks) : ticks < UInt32.size := by
  have hl := h.ticks_le
  have hs : 255 + maxRestTicks < UInt32.size := by decide
  omega

end InRange

/-- A line is written token by token, up to the first that is refused. -/
theorem encodeWords_concat {number : Nat} {ws : List (List Char)} {before stream : List UInt8}
    (h : encodeWords timing number ws before = .ok stream) (cs : List Char) :
    encodeWords timing number (ws ++ [cs]) before =
      match append timing cs stream with
      | (.ok _, stream) => .ok stream
      | (.error fault, _) => .error (.token number (String.ofList cs) fault) := by
  induction ws generalizing before with
  | nil =>
    cases h
    rw [List.nil_append, encodeWords]
    split <;> rename_i he <;> rw [he]
    rfl
  | cons w ws ih =>
    rw [encodeWords] at h
    rw [List.cons_append, encodeWords]
    split at h
    · cases h
    · exact ih h

/-- The name of a pitch is the first two bytes of its token, so what follows begins between two
characters. -/
theorem sound_iff_bytes {p : UInt8} :
    sound? cs = some (some p, after) ↔
      ∃ name, cs = name ++ after ∧ (String.ofList name).utf8ByteSize = 2 ∧
        pitch? name = some p := by
  constructor
  · intro h
    obtain ⟨name, index, rfl, hs, hp⟩ := sound_iff.mp h
    obtain ⟨n, rfl, rfl⟩ := Option.map_eq_some_iff.mp hp.symm
    exact ⟨name, rfl, hs.bytes, pitch_iff_sounds.mpr ⟨n, hs, rfl⟩⟩
  · rintro ⟨name, rfl, _, hp⟩
    obtain ⟨n, hs, rfl⟩ := pitch_iff_sounds.mp hp
    exact sound_iff.mpr ⟨name, some n, rfl, hs, rfl⟩

/-- A token is accepted just when the grammar has it. Then the bytes it writes are read back as its
note or rest, less what it is cut by, and a rest of that length, so that it always lasts its ticks.
A token that is refused writes nothing, and a line is written token by token. Cutting a token at its
second byte never cuts a character. -/
theorem encode_accepts_grammar (hc : timing.cutTicks ≤ 127) (cs : List Char) :
    ((∃ bytes, encode timing cs = .ok bytes) ↔
      ∃ index ticks cut, Written timing cs index ticks cut) ∧
    (∀ index ticks cut, Written timing cs index ticks cut →
      ∃ bytes, encode timing cs = .ok bytes ∧
        Polysynth.events bytes = meaning index ticks cut ∧ unread bytes = [] ∧
        duration? bytes = some ticks ∧
        ∀ stream, append timing cs stream = (.ok (), stream ++ bytes)) ∧
    ((¬ ∃ index ticks cut, Written timing cs index ticks cut) →
      ∃ fault, ∀ stream, append timing cs stream = (.error fault, stream)) ∧
    (∀ number ws before stream, encodeWords timing number ws before = .ok stream →
      encodeWords timing number (ws ++ [cs]) before =
        match append timing cs stream with
        | (.ok _, stream) => .ok stream
        | (.error fault, _) => .error (.token number (String.ofList cs) fault)) ∧
    ∀ pitch after, sound? cs = some (some pitch, after) ↔
      ∃ name, cs = name ++ after ∧ (String.ofList name).utf8ByteSize = 2 ∧
        pitch? name = some pitch := by
  have hok : (∃ bytes, encode timing cs = .ok bytes) ↔
      ∃ index ticks cut, Written timing cs index ticks cut := by
    simp only [encode_eq_ok_iff]
    constructor
    · rintro ⟨_, index, ticks, cut, hw, _⟩
      exact ⟨index, ticks, cut, hw⟩
    · rintro ⟨index, ticks, cut, hw⟩
      exact ⟨_, index, ticks, cut, hw, rfl⟩
  refine ⟨hok, ?_, ?_, ?_, ?_⟩
  · intro index ticks cut hw
    obtain ⟨hrange, hle⟩ := hw.range
    have hcut : cut ≤ maxRestTicks := Nat.le_trans hle hc
    have he := events_flatMap_encode (hrange.meaning_encodable hcut)
    have hb : encode timing cs = .ok _ := encode_eq_ok_iff.mpr ⟨index, ticks, cut, hw, rfl⟩
    refine ⟨_, hb, he, ?_, ?_, ?_⟩
    · have hu := flatMap_encode_append_unread ((meaning index ticks cut).flatMap Event.encode)
      rw [he] at hu
      exact List.append_right_eq_self.mp hu
    · apply duration?_eq_some_iff.mpr
      rw [he]
      exact ⟨hrange.ticks_meaning hcut, hrange.ticks_lt hcut⟩
    · intro stream
      rw [append, hb]
  · intro hn
    cases he : encode timing cs with
    | ok bytes => exact absurd (hok.mp ⟨bytes, he⟩) hn
    | error fault => exact ⟨fault, fun stream => by rw [append, he]⟩
  · intro number ws before stream h
    exact encodeWords_concat h cs
  · intro pitch after
    exact sound_iff_bytes

/-- A dotted note that is cut, and after it on its line the name above the highest pitch. -/
theorem encode_accepts_dotted_cut :
    let timing : Timing := { ticksPerWhole := 96, cutTicks := 2 }
    let note := ['B', '4', '=', '8', '.', '+']
    let high := ['B', '5', '-', '9']
    timing.cutTicks ≤ 127 ∧ Written timing note (some 60) 18 2 ∧
      (∃ bytes, encode timing note = .ok bytes ∧
        Polysynth.events bytes = [.note 60 16, .rest 2] ∧ duration? bytes = some 18) ∧
      (¬ ∃ index ticks cut, Written timing high index ticks cut) ∧
      (∃ fault, ∀ stream, append timing high stream = (.error fault, stream)) ∧
      encodeWords timing 7 [note, high] [] = .error (.token 7 "B5-9" (.pitchOutOfRange 72)) ∧
      ∃ name, note = name ++ ['=', '8', '.', '+'] ∧ (String.ofList name).utf8ByteSize = 2 ∧
        pitch? name = some 60 := by
  intro timing note high
  have hc : timing.cutTicks ≤ 127 := by decide
  have hnumber : Numeral ['8'] 8 := ⟨by decide, List.forall_mem_singleton.mpr rfl, rfl, by decide⟩
  have hsound : Sounds ['B', Nat.digitChar 4] (some (12 + 12 * 4)) :=
    .pitch (by decide) (by decide)
  have hlasts : Lasts 96 (.dotted 8) (3 * 96 / (2 * 8)) :=
    .dotted (by decide) (by decide) (by decide)
  have hrange : InRange (some 60) 18 timing.cutTicks := ⟨by simp, by decide, by decide⟩
  have hw : Written timing note (some 60) 18 2 :=
    .token hsound (.dotted hnumber) hlasts true hrange
  obtain ⟨_, haccepted, _, _, hname⟩ := encode_accepts_grammar hc note
  obtain ⟨hgrammar, _, hrefused, hline, _⟩ := encode_accepts_grammar hc high
  have hn : ¬ ∃ index ticks cut, Written timing high index ticks cut := by
    rw [← hgrammar]
    rintro ⟨bytes, h⟩
    cases h
  obtain ⟨bytes, hb, he, _, hd, _⟩ := haccepted _ _ _ hw
  have hfirst : encodeWords { ticksPerWhole := 96, cutTicks := 2 } 7
      [['B', '4', '=', '8', '.', '+']] [] = .ok [60, 16, 130] := rfl
  exact ⟨hc, hw, ⟨bytes, hb, he, hd⟩, hn, hrefused hn, hline 7 _ _ _ hfirst, (hname 60 _).mp rfl⟩

end Token

end Score

end Polysynth
