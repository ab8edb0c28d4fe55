import Polysynth.Proofs.Streams
import Polysynth.Score.Load

namespace Polysynth

/-- The event lasts, its bytes tell it apart, and its pitch is in the table. -/
def Event.Proper : Event → Prop
  | note p t => p.toNat < pitchCount ∧ 1 ≤ t.toNat
  | rest t => 1 ≤ t.toNat ∧ t.toNat ≤ maxRestTicks

instance (e : Event) : Decidable e.Proper :=
  match e with
  | .note p t => inferInstanceAs (Decidable (p.toNat < pitchCount ∧ 1 ≤ t.toNat))
  | .rest t => inferInstanceAs (Decidable (1 ≤ t.toNat ∧ t.toNat ≤ maxRestTicks))

theorem Event.Proper.encodable {e : Event} (h : e.Proper) : e.Encodable := by
  cases e with
  | note p t => exact Nat.lt_trans h.1 (by decide)
  | rest t => exact h.2

theorem Event.Proper.lasts {e : Event} (h : e.Proper) : 1 ≤ e.ticks.toNat := by
  cases e with
  | note p t => exact h.2
  | rest t => exact h.1

def Spelled (bytes : List UInt8) : Prop :=
  ∃ es : List Event, (∀ e ∈ es, e.Proper) ∧ bytes = es.flatMap Event.encode

theorem Spelled.nil : Spelled [] := ⟨[], by simp, rfl⟩

theorem Spelled.append {a b : List UInt8} (ha : Spelled a) (hb : Spelled b) :
    Spelled (a ++ b) := by
  obtain ⟨es, he, rfl⟩ := ha
  obtain ⟨ds, hd, rfl⟩ := hb
  refine ⟨es ++ ds, ?_, by rw [List.flatMap_append]⟩
  intro e hm
  rcases List.mem_append.mp hm with hm | hm
  · exact he e hm
  · exact hd e hm

/-- Proper events are read back as they were written, so their bytes hold no others. -/
theorem Spelled.events_proper {bytes : List UInt8} (h : Spelled bytes) :
    ∀ e ∈ events bytes, e.Proper := by
  obtain ⟨es, he, rfl⟩ := h
  rw [events_flatMap_encode (fun e hm => (he e hm).encodable)]
  exact he

namespace Score

variable {timing : Timing}

theorem map_ok {ε α β : Type} {x : Except ε α} {f : α → β} {b : β} (h : x.map f = .ok b) :
    ∃ a, x = .ok a ∧ f a = b := by
  cases x with
  | error e => cases h
  | ok a => cases h; exact ⟨a, rfl, rfl⟩

/-- The length of an event was checked when its token was read. -/
theorem Token.event_proper {pitch : Option UInt8} {length : Int} {e : Event}
    (h : Token.event pitch length = .ok e) (hl : length ≠ 0) : e.Proper := by
  have ht (hr : 0 ≤ length ∧ length ≤ 255) : (UInt8.ofNat length.toNat).toNat = length.toNat := by
    apply UInt8.toNat_ofNat_of_lt'
    change length.toNat < 256
    omega
  cases pitch with
  | none =>
    simp only [Token.event] at h
    split at h
    · rename_i hr
      have hm : length ≤ 127 := hr.2
      cases h
      simp only [Event.Proper, maxRestTicks, ht ⟨hr.1, by omega⟩]
      omega
    · cases h
  | some p =>
    simp only [Token.event] at h
    split at h
    · cases h
    · rename_i hp
      split at h
      · rename_i hr
        cases h
        simp only [Event.Proper, ht hr]
        omega
      · cases h

theorem Token.events_proper {t : Token} {es : List Event} (hc : timing.cutTicks ≤ maxRestTicks)
    (h : t.events timing = .ok es) : ∀ e ∈ es, e.Proper := by
  unfold Token.events at h
  split at h
  · cases h
  · dsimp only at h
    split at h
    · cases h
    · rename_i e he
      split at h
      · cases h
      · rename_i hl
        have hp := Token.event_proper he hl
        split at h
        · cases h
          simpa using hp
        · rename_i hcut
          cases h
          have hb : t.cutBy timing ≤ maxRestTicks := by
            unfold Token.cutBy
            split
            · exact hc
            · exact Nat.zero_le _
          have ht : (UInt8.ofNat (t.cutBy timing)).toNat = t.cutBy timing :=
            UInt8.toNat_ofNat_of_lt' (Nat.lt_of_le_of_lt hb (by decide))
          intro d hd
          rcases List.mem_cons.mp hd with rfl | hd
          · exact hp
          · rw [List.mem_singleton.mp hd]
            simp only [Event.Proper, ht]
            omega

theorem Token.encode_spelled {cs : List Char} {bytes : List UInt8}
    (hc : timing.cutTicks ≤ maxRestTicks) (h : Token.encode timing cs = .ok bytes) :
    Spelled bytes := by
  unfold Token.encode at h
  split at h
  · cases h
  · rename_i t _
    cases he : t.events timing with
    | error fault => rw [he] at h; cases h
    | ok es =>
      rw [he] at h
      cases h
      exact ⟨es, Token.events_proper hc he, rfl⟩

/-- What a line appends to a stream does not depend on the stream. -/
theorem encodeWords_onto (timing : Timing) (number : Nat) (ws : List (List Char))
    (stream : List UInt8) :
    encodeWords timing number ws stream =
      (encodeWords timing number ws []).map (fun more => stream ++ more) := by
  induction ws generalizing stream with
  | nil => simp [encodeWords, Except.map]
  | cons w ws ih =>
    simp only [encodeWords, Token.append]
    cases Token.encode timing w with
    | error fault => rfl
    | ok bytes =>
      dsimp only
      rw [ih (stream ++ bytes), ih ([] ++ bytes)]
      cases encodeWords timing number ws [] with
      | error e => rfl
      | ok more => simp [Except.map]

/-- The tokens behind the first are encoded as if they stood alone. -/
theorem encodeWords_cons (timing : Timing) (number : Nat) (w : List Char) (ws : List (List Char)) :
    encodeWords timing number (w :: ws) [] =
      match Token.encode timing w with
      | .error fault => .error (.token number (String.ofList w) fault)
      | .ok bytes => (encodeWords timing number ws []).map (fun more => bytes ++ more) := by
  rw [encodeWords, Token.append]
  cases Token.encode timing w with
  | error fault => rfl
  | ok bytes => exact encodeWords_onto timing number ws bytes

theorem encodeLines_onto (timing : Timing) (ls : List Line) (stream : List UInt8) :
    encodeLines timing ls stream = (encodeLines timing ls []).map (fun more => stream ++ more) := by
  induction ls generalizing stream with
  | nil => simp [encodeLines, Except.map]
  | cons line ls ih =>
    rw [encodeLines, encodeLines, encodeWords_onto]
    cases encodeWords timing line.number (Text.words line.text) [] with
    | error e => rfl
    | ok bytes =>
      simp only [Except.map]
      rw [ih (stream ++ bytes), ih bytes]
      cases encodeLines timing ls [] with
      | error e => rfl
      | ok more => simp [Except.map]

theorem encodeLines_cons (timing : Timing) (line : Line) (ls : List Line) :
    encodeLines timing (line :: ls) [] =
      match encodeWords timing line.number (Text.words line.text) [] with
      | .error e => .error e
      | .ok bytes => (encodeLines timing ls []).map (fun more => bytes ++ more) := by
  rw [encodeLines]
  cases encodeWords timing line.number (Text.words line.text) [] with
  | error e => rfl
  | ok bytes => exact encodeLines_onto timing ls bytes

theorem encodeWords_spelled (hc : timing.cutTicks ≤ maxRestTicks) {number : Nat}
    {ws : List (List Char)} {bytes : List UInt8}
    (h : encodeWords timing number ws [] = .ok bytes) : Spelled bytes := by
  induction ws generalizing bytes with
  | nil => cases h; exact .nil
  | cons w ws ih =>
    rw [encodeWords_cons] at h
    split at h
    · cases h
    · rename_i head hw
      obtain ⟨more, hm, rfl⟩ := map_ok h
      exact (Token.encode_spelled hc hw).append (ih hm)

theorem encodeLines_spelled (hc : timing.cutTicks ≤ maxRestTicks) {ls : List Line}
    {bytes : List UInt8} (h : encodeLines timing ls [] = .ok bytes) : Spelled bytes := by
  induction ls generalizing bytes with
  | nil => cases h; exact .nil
  | cons line ls ih =>
    rw [encodeLines_cons] at h
    split at h
    · cases h
    · rename_i head hw
      obtain ⟨more, hm, rfl⟩ := map_ok h
      exact (encodeWords_spelled hc hw).append (ih hm)

theorem length_encodeTracks {parts : List (List Line × Generator)} {ts : List Track}
    (h : encodeTracks timing parts = .ok ts) : ts.length = parts.length := by
  induction parts generalizing ts with
  | nil => cases h; rfl
  | cons part parts ih =>
    unfold encodeTracks at h
    split at h
    · cases h
    · obtain ⟨more, hm, rfl⟩ := map_ok h
      simp [ih hm]

/-- Whatever the text, tracks are written from proper events only. -/
theorem encodeTracks_spelled (hc : timing.cutTicks ≤ maxRestTicks)
    {parts : List (List Line × Generator)} {ts : List Track}
    (h : encodeTracks timing parts = .ok ts) :
    ∀ t ∈ ts, Spelled t.data ∧ t.looping = true := by
  induction parts generalizing ts with
  | nil => cases h; simp
  | cons part parts ih =>
    obtain ⟨ls, g⟩ := part
    unfold encodeTracks at h
    split at h
    · cases h
    · rename_i data hd
      obtain ⟨more, hm, rfl⟩ := map_ok h
      intro t ht
      rcases List.mem_cons.mp ht with rfl | ht
      · exact ⟨encodeLines_spelled hc hd, rfl⟩
      · exact ih hm t ht

structure Header.Bounded (h : Header) : Prop where
  rate : ∀ n, h.samplesPerTick = some n → n ≠ 0
  cut : ∀ n, h.cutTicks = some n → n ≤ maxRestTicks

theorem plainBelow_lt {limit n : Nat} {cs : List Char}
    (h : Text.plainBelow? limit cs = some n) : n < limit := by
  unfold Text.plainBelow? at h
  split at h
  all_goals
    obtain ⟨_, hn⟩ := Option.filter_eq_some_iff.mp h
    simpa using hn

/-- Numbers beyond their bounds are refused when the entry is read. -/
theorem Header.Bounded.set {h h' : Header} {key : Key} {value : List Char} (hb : h.Bounded)
    (hs : h.set key value = .ok h') : h'.Bounded := by
  cases key with
  | samplesPerTick =>
    simp only [Header.set] at hs
    split at hs
    · cases hs
    · rename_i n hn
      split at hs
      · cases hs
      · rename_i hz
        cases hs
        refine ⟨?_, hb.cut⟩
        intro k hk
        cases hk
        have hk : (UInt16.ofNat n).toNat = n := UInt16.toNat_ofNat_of_lt' (plainBelow_lt hn)
        intro h0
        rw [h0] at hk
        exact hz hk.symm
  | generators =>
    obtain ⟨gs, _, rfl⟩ := map_ok hs
    exact ⟨hb.rate, hb.cut⟩
  | ticksPerWhole =>
    simp only [Header.set] at hs
    split at hs
    · cases hs
    · cases hs
      exact ⟨hb.rate, hb.cut⟩
  | cutTicks =>
    simp only [Header.set] at hs
    split at hs
    · cases hs
    · rename_i n hn
      cases hs
      refine ⟨hb.rate, ?_⟩
      intro k hk
      cases hk
      exact Nat.le_of_lt_succ (plainBelow_lt hn)

theorem Header.Bounded.read {h h' : Header} {text : List Char} (hb : h.Bounded)
    (hr : h.read text = .ok h') : h'.Bounded := by
  unfold Header.read at hr
  split at hr
  · cases hr
  · split at hr
    · cases hr
    · exact hb.set hr

theorem sift_bounded {h h' : Header} {ls body : List Line} (hb : h.Bounded)
    (hs : sift h ls = .ok (h', body)) : h'.Bounded := by
  induction ls generalizing h body with
  | nil => cases hs; exact hb
  | cons line ls ih =>
    unfold sift at hs
    split at hs
    · exact ih hb hs
    · split at hs
      · cases hs
      · rename_i hr
        exact ih (hb.read hr) hs
    · obtain ⟨⟨h₁, rest⟩, hm, he⟩ := map_ok hs
      cases he
      exact ih hb hm

theorem settings_entries {h : Header} {s : Settings} (hs : h.settings = .ok s) :
    h.samplesPerTick = some s.samplesPerTick ∧ h.cutTicks = some s.timing.cutTicks := by
  unfold Header.settings at hs
  cases hr : h.samplesPerTick with
  | none => rw [hr] at hs; cases hs
  | some rate =>
    cases hg : h.generators with
    | none => rw [hr, hg] at hs; cases hs
    | some gs =>
      cases hw : h.ticksPerWhole with
      | none => rw [hr, hg, hw] at hs; cases hs
      | some whole =>
        cases hc : h.cutTicks with
        | none => rw [hr, hg, hw, hc] at hs; cases hs
        | some cut =>
          rw [hr, hg, hw, hc] at hs
          cases hs
          exact ⟨rfl, rfl⟩

/-- What a score went through when it loads. -/
theorem load_cases {text : String} {song : Song} (h : load text = .ok song) :
    ∃ header body settings rows tracks,
      sift {} (lines text.toList) = .ok (header, body) ∧ header.settings = .ok settings ∧
      Layout.arrange body = .ok rows ∧ settings.generators.length = rows.length ∧
      encodeTracks settings.timing (rows.zip settings.generators) = .ok tracks ∧
      tracks.length = rows.length ∧
      song = { samplesPerTick := settings.samplesPerTick
               attenuation := attenuationFor tracks.length, tracks := tracks } := by
  unfold load at h
  split at h
  · cases h
  · rename_i header body hs
    split at h
    · cases h
    · rename_i settings hset
      split at h
      · cases h
      · rename_i rows hrows
        split at h
        · cases h
        · rename_i hn
          obtain ⟨tracks, ht, rfl⟩ := map_ok h
          have hg : settings.generators.length = rows.length := Decidable.not_not.mp hn
          have hl : tracks.length = rows.length := by
            rw [length_encodeTracks ht, List.length_zip, hg, Nat.min_self]
          exact ⟨header, body, settings, rows, tracks, hs, hset, hrows, hg, ht, hl, by rw [hl]⟩

structure Loaded (song : Song) : Prop where
  rate : song.samplesPerTick ≠ 0
  attenuation : song.attenuation = attenuationFor song.tracks.length
  spelled : ∀ t ∈ song.tracks, Spelled t.data
  looping : ∀ t ∈ song.tracks, t.looping = true

/-- What a score gives when it loads can be played, whatever its text. -/
theorem loaded_of_load {text : String} {song : Song} (h : load text = .ok song) :
    Loaded song := by
  obtain ⟨header, body, settings, rows, tracks, hs, hset, _, _, ht, _, rfl⟩ := load_cases h
  have hb : header.Bounded := sift_bounded ⟨by simp, by simp⟩ hs
  obtain ⟨hrate, hcut⟩ := settings_entries hset
  have hall := encodeTracks_spelled (hb.cut _ hcut) ht
  exact ⟨hb.rate _ hrate, rfl, fun t hm => (hall t hm).1, fun t hm => (hall t hm).2⟩

end Score

end Polysynth
