import Polysynth.Proofs.Headroom
import Polysynth.Proofs.Meaning

namespace Polysynth.Mixer

inductive Call where
  | add (p : Part)
  | next
  | reset

def after (m : Mixer) : Call → Mixer
  | .add p => (m.add p).toOption.getD m
  | .next => m.next.2
  | .reset => m.reset

def outputs (m : Mixer) : List Call → List UInt8
  | [] => []
  | .next :: calls => m.next.1 :: outputs m.next.2 calls
  | c :: calls => outputs (m.after c) calls

/-- A part that a mixer has taken, and how many samples it has given since then or since the last
reset. -/
structure Entry where
  part : Part
  played : Nat := 0

def Entry.voice (table : IncrementTable) (rate : Nat) (e : Entry) : Voice :=
  (draw (Voice.next table rate) e.played (Voice.start e.part)).2

def Entry.sample (table : IncrementTable) (rate : Nat) (e : Entry) : UInt8 :=
  sampleAfter (Voice.next table rate) e.played (Voice.start e.part)

structure Desk where
  mixer : Mixer
  entries : List Entry := []

namespace Desk

def after (d : Desk) (c : Call) : Desk where
  mixer := d.mixer.after c
  entries :=
    match c with
    | .add p => if (d.mixer.add p).isOk then d.entries ++ [{ part := p }] else d.entries
    | .next => d.entries.map (fun e => { e with played := e.played + 1 })
    | .reset => d.entries.map (fun e => { part := e.part })

def run (d : Desk) (calls : List Call) : Desk := calls.foldl after d

/-- The mixer plays each part of the record as if it were alone, and all of them fit. -/
structure Faithful (m : Mixer) (d : Desk) : Prop where
  mixer : d.mixer = { m with voices := d.entries.map (Entry.voice m.table m.samplesPerTick.toNat) }
  fits : fits d.entries.length m.attenuation = true

end Desk

variable {m m' : Mixer} {d : Desk} {p : Part}

def HasRoom (m : Mixer) : Prop :=
  fits (m.voices.length + 1) m.attenuation = true ∧ m.voices.length < m.capacity

theorem add_of_room (h : m.HasRoom) (p : Part) :
    m.add p = .ok { m with voices := m.voices ++ [Voice.start p] } := by
  have hc : ¬ m.capacity < m.voices.length + 1 := Nat.not_lt.mpr h.2
  simp [add, h.1, hc]

theorem add_refused (h : ¬ m.HasRoom) (p : Part) : ∃ e, m.add p = .error e := by
  unfold add
  dsimp only
  split
  · exact ⟨_, rfl⟩
  · rename_i hf
    split
    · exact ⟨_, rfl⟩
    · rename_i hc
      exact absurd ⟨by simpa using hf, Nat.not_lt.mp hc⟩ h

/-- Every voice is asked for a sample, also one that has stopped. -/
theorem next_voices (m : Mixer) :
    m.next.2 = { m with
      voices := m.voices.map (fun v => (v.next m.table m.samplesPerTick.toNat).2) } := by
  simp only [next, List.map_map]
  rfl

theorem next_sample (m : Mixer) :
    m.next.1 = mix m.attenuation
      (m.voices.map (fun v => (v.next m.table m.samplesPerTick.toNat).1)) := by
  simp only [next, List.map_map]
  rfl

namespace Entry

variable (table : IncrementTable) (rate : Nat) (e : Entry)

theorem voice_part : (e.voice table rate).part = e.part := by
  have hk (v : Voice) (hv : v.part = e.part) : (v.next table rate).2.part = e.part :=
    (Voice.next_part table rate v).trans hv
  exact draw_keeps hk e.played rfl

theorem next_voice :
    ((e.voice table rate).next table rate).2 =
      Entry.voice table rate { e with played := e.played + 1 } := by
  simp only [voice, draw_succ_last]

theorem reset_voice : (e.voice table rate).reset = Entry.voice table rate { part := e.part } := by
  rw [Voice.reset, voice_part]
  rfl

end Entry

namespace Desk

theorem Faithful.start (hv : m.voices = []) : Faithful m { mixer := m } := by
  refine ⟨?_, by simp [Polysynth.fits]⟩
  rw [List.map_nil, ← hv]

/-- A call does to each entry what it does to a voice by itself. -/
theorem Faithful.after (h : d.Faithful m) (c : Call) : (d.after c).Faithful m := by
  have hm := h.mixer
  cases c with
  | add p =>
    by_cases hr : d.mixer.HasRoom
    · have hd : d.after (.add p) =
          { mixer := { d.mixer with voices := d.mixer.voices ++ [Voice.start p] }
            entries := d.entries ++ [{ part := p }] } := by
        simp only [Desk.after, Mixer.after, add_of_room hr]
        rfl
      rw [hd]
      refine ⟨?_, ?_⟩
      · rw [hm, List.map_append]
        rfl
      · simpa [hm] using hr.1
    · obtain ⟨e, he⟩ := add_refused hr p
      have hd : d.after (.add p) = d := by
        simp only [Desk.after, Mixer.after, he]
        rfl
      rw [hd]
      exact h
  | next =>
    refine ⟨?_, by simpa [Desk.after] using h.fits⟩
    simp only [Desk.after, Mixer.after, next_voices, hm, List.map_map]
    congr 2
    funext e
    exact e.next_voice _ _
  | reset =>
    refine ⟨?_, by simpa [Desk.after] using h.fits⟩
    simp only [Desk.after, Mixer.after, Mixer.reset, hm, List.map_map]
    congr 2
    funext e
    exact e.reset_voice _ _

theorem Faithful.run (h : d.Faithful m) (calls : List Call) : (d.run calls).Faithful m := by
  induction calls generalizing d with
  | nil => exact h
  | cons c calls ih => exact ih (h.after c)

theorem Faithful.next_sample (h : d.Faithful m) :
    d.mixer.next.1 =
      mix m.attenuation (d.entries.map (Entry.sample m.table m.samplesPerTick.toNat)) := by
  rw [Mixer.next_sample, h.mixer, List.map_map]
  rfl

end Desk

def Reordered (m m' : Mixer) : Prop :=
  ∃ voices, m.voices.Perm voices ∧ m' = { m with voices := voices }

-- Sums in 16 bits may wrap here: commutativity needs no bound.
/-- A sum does not depend on the order of its terms, not even in 16 bits. -/
theorem mix_perm {samples samples' : List UInt8} (exponent : Nat) (h : samples.Perm samples') :
    mix exponent samples = mix exponent samples' := by
  have hc (x y : UInt8) (sum : Int16) :
      sum + deviation exponent x + deviation exponent y =
        sum + deviation exponent y + deviation exponent x := by
    rw [Int16.add_assoc, Int16.add_assoc, Int16.add_comm (deviation exponent x)]
  unfold mix
  rw [h.foldl_eq' (fun x _ y _ sum => hc x y sum)]

/-- Room is a matter of how many voices there are, and not of which. -/
theorem Reordered.hasRoom_iff (h : Reordered m m') : m.HasRoom ↔ m'.HasRoom := by
  obtain ⟨voices, hp, rfl⟩ := h
  simp only [HasRoom, hp.length_eq]

theorem Reordered.add (h : Reordered m m') (p : Part) :
    Reordered (m.after (.add p)) (m'.after (.add p)) := by
  by_cases hr : m.HasRoom
  · simp only [after, add_of_room hr, add_of_room (h.hasRoom_iff.mp hr)]
    obtain ⟨voices, hp, rfl⟩ := h
    exact ⟨voices ++ [Voice.start p], hp.append_right _, rfl⟩
  · obtain ⟨e, he⟩ := add_refused hr p
    obtain ⟨e', he'⟩ := add_refused (h.hasRoom_iff.not.mp hr) p
    simp only [after, he, he']
    exact h

theorem Reordered.next_eq (h : Reordered m m') : m.next.1 = m'.next.1 := by
  obtain ⟨voices, hp, rfl⟩ := h
  rw [next_sample, next_sample]
  exact mix_perm m.attenuation (hp.map _)

theorem Reordered.next (h : Reordered m m') : Reordered m.next.2 m'.next.2 := by
  obtain ⟨voices, hp, rfl⟩ := h
  rw [next_voices, next_voices]
  exact ⟨_, hp.map _, rfl⟩

theorem Reordered.reset (h : Reordered m m') : Reordered m.reset m'.reset := by
  obtain ⟨voices, hp, rfl⟩ := h
  exact ⟨_, hp.map _, rfl⟩

/-- Mixers that have taken the same parts for as long differ in the order of their voices only. -/
theorem Desk.Faithful.reordered {d' : Desk} (h : d.Faithful m) (h' : d'.Faithful m)
    (hp : d.entries.Perm d'.entries) : Reordered d.mixer d'.mixer := by
  rw [h.mixer, h'.mixer]
  exact ⟨_, hp.map _, rfl⟩

/-- The order of voices is not to be heard in any samples. -/
theorem Reordered.outputs_eq (h : Reordered m m') (calls : List Call) :
    m.outputs calls = m'.outputs calls := by
  induction calls generalizing m m' with
  | nil => rfl
  | cons c calls ih =>
    cases c with
    | add p => exact ih (h.add p)
    | next => exact congrArg₂ List.cons h.next_eq (ih h.next)
    | reset => exact ih h.reset

theorem empty_cases {capacity : Nat} {table : IncrementTable} {samplesPerTick : UInt16}
    {attenuation : Nat} (h : empty capacity table samplesPerTick attenuation = .ok m) :
    m = { capacity := capacity, table := table, samplesPerTick := samplesPerTick
          attenuation := attenuation } ∧ attenuation ≤ maxAttenuation := by
  unfold empty at h
  split at h
  · cases h
  · split at h
    · cases h
    · rename_i ha
      cases h
      exact ⟨rfl, Nat.le_of_not_lt ha⟩

/-- Each sample of a mixer is silence and the exact sum of what its parts would deviate from it by
themselves, whatever was added, refused, played and reset before. The sum is a sample, and the
16-bit sum of the first voices is right for any number of them. Mixers that have played the same
parts for as long give the same samples from then on, in whichever order the parts were added. -/
theorem next_eq_sum_of_parts {capacity : Nat} {table : IncrementTable} {samplesPerTick : UInt16}
    {attenuation : Nat} (h : empty capacity table samplesPerTick attenuation = .ok m)
    (calls : List Call) :
    let d := Desk.run { mixer := m } calls
    let samples := d.entries.map (Entry.sample table samplesPerTick.toNat)
    let offsets := samples.map (offset attenuation)
    (d.mixer.next.1.toNat : Int) = 128 + offsets.sum ∧
      (0 ≤ 128 + offsets.sum ∧ 128 + offsets.sum ≤ 255) ∧
      (∀ k, (accumulate attenuation (samples.take k)).toInt = (offsets.take k).sum) ∧
      ∀ calls', (Desk.run { mixer := m } calls').entries.Perm d.entries →
        ∀ later, (Desk.run { mixer := m } calls').mixer.outputs later = d.mixer.outputs later := by
  obtain ⟨hm, ha⟩ := empty_cases h
  have hrun (calls : List Call) : (Desk.run { mixer := m } calls).Faithful m :=
    (Desk.Faithful.start (by rw [hm])).run calls
  intro d samples offsets
  have hd : d.Faithful m := hrun calls
  have hs : d.mixer.next.1 = mix attenuation samples := by
    rw [hd.next_sample, hm]
  have hf : fits samples.length attenuation = true := by
    simpa [samples, hm] using hd.fits
  refine ⟨?_, ?_, ?_, ?_⟩
  · rw [hs]
    exact toNat_mix ha hf
  · have hb : -128 ≤ offsets.sum ∧ offsets.sum ≤ 127 := sum_offsets_bounds ha hf (Nat.le_refl _)
    omega
  · intro k
    rw [toInt_accumulate_of_fits ha hf (List.length_take_le' _ _), List.map_take]
  · intro calls' hp later
    exact ((hrun calls').reordered hd hp).outputs_eq later

/-- Two squares of one pitch, a sample apart, and a third that an exponent of 1 refuses. -/
theorem next_eq_sum_of_two_squares :
    let p : Part := { stream := [60, 10], generator := .square }
    let m : Mixer :=
      { capacity := 8, table := .standard, samplesPerTick := 1, attenuation := 1 }
    let d := Desk.run { mixer := m } [.add p, .next, .add p, .add p]
    empty 8 .standard 1 1 = .ok m ∧ d.entries.map Entry.played = [1, 0] ∧
      (d.mixer.next.1.toNat : Int) = 128 + (-23 + -23) := by
  intro p m d
  have hm : empty 8 .standard 1 1 = .ok m := rfl
  have hs := (next_eq_sum_of_parts hm [.add p, .next, .add p, .add p]).1
  exact ⟨hm, by decide, hs.trans (by decide)⟩

section Assembly

variable {capacity : Nat} {table : IncrementTable} {s : Song}

/-- A mixer with a voice for every track of a song. -/
def assembled (capacity : Nat) (table : IncrementTable) (s : Song) : Mixer where
  capacity := capacity
  table := table
  samplesPerTick := s.samplesPerTick
  attenuation := s.attenuation
  voices := s.parts.map Voice.start

/-- Parts are only ever added behind the voices that are there. -/
theorem voices_of_addAll {ps : List Part} (h : m.addAll ps = .ok m') :
    m' = { m with voices := m.voices ++ ps.map Voice.start } := by
  induction ps generalizing m with
  | nil => cases h; simp
  | cons p ps ih =>
    unfold addAll at h
    by_cases hr : m.HasRoom
    · rw [add_of_room hr] at h
      simpa using ih h
    · obtain ⟨e, he⟩ := add_refused hr p
      rw [he] at h
      cases h

/-- A song that is accepted has all its tracks in the mixer, each at its start. -/
theorem eq_assembled_of_ofSong (h : ofSong capacity table s = .ok m) :
    m = assembled capacity table s := by
  unfold ofSong at h
  cases he : empty capacity table s.samplesPerTick s.attenuation with
  | error e => rw [he] at h; cases h
  | ok m₀ =>
    rw [he] at h
    obtain ⟨rfl, _⟩ := empty_cases he
    exact voices_of_addAll h

/-- Room for the last of some parts is room for each of them. -/
theorem addAll_of_fits {ps : List Part} (hf : fits (m.voices.length + ps.length) m.attenuation = true)
    (hc : m.voices.length + ps.length ≤ m.capacity) : ∃ m', m.addAll ps = .ok m' := by
  induction ps generalizing m with
  | nil => exact ⟨m, rfl⟩
  | cons p ps ih =>
    simp only [List.length_cons] at hf hc
    have hr : m.HasRoom := ⟨fits_mono hf (by omega), by omega⟩
    unfold addAll
    rw [add_of_room hr]
    apply ih
    · simpa [Nat.add_assoc, Nat.add_comm 1] using hf
    · simpa [Nat.add_assoc, Nat.add_comm 1] using hc

/-- The tracks of a song with a rate and an exponent in use are added to a mixer without voices. -/
theorem ofSong_eq_addAll (hs : s.samplesPerTick ≠ 0) (ha : s.attenuation ≤ maxAttenuation) :
    ofSong capacity table s =
      ({ capacity := capacity, table := table, samplesPerTick := s.samplesPerTick
         attenuation := s.attenuation } : Mixer).addAll s.parts := by
  have he : empty capacity table s.samplesPerTick s.attenuation =
      .ok { capacity := capacity, table := table, samplesPerTick := s.samplesPerTick
            attenuation := s.attenuation } := by
    simp [empty, hs, Nat.not_lt.mpr ha]
  rw [ofSong, he]
  rfl

/-- A song is mixed if it has a rate, and an exponent and a capacity for all its tracks. -/
theorem ofSong_of_fits (hs : s.samplesPerTick ≠ 0) (ha : s.attenuation ≤ maxAttenuation)
    (hf : fits s.tracks.length s.attenuation = true) (hc : s.tracks.length ≤ capacity) :
    ofSong capacity table s = .ok (assembled capacity table s) := by
  have hl : s.parts.length = s.tracks.length := List.length_map _
  have hall : ∃ m, ofSong capacity table s = .ok m := by
    rw [ofSong_eq_addAll hs ha]
    exact addAll_of_fits (by simpa [hl] using hf) (by simpa [hl] using hc)
  obtain ⟨m, hm⟩ := hall
  rw [hm, eq_assembled_of_ofSong hm]

end Assembly

end Polysynth.Mixer
