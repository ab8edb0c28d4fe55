import Polysynth.Proofs.Meaning
import Polysynth.Proofs.Passes
import Polysynth.Proofs.Splitting

namespace Polysynth

namespace Spelled

variable {bytes : List UInt8}

theorem flatMap_encode_events (h : Spelled bytes) : (events bytes).flatMap Event.encode = bytes := by
  obtain ⟨es, he, rfl⟩ := h
  rw [events_flatMap_encode (fun e hm => (he e hm).encodable)]

/-- Only its end stops the walk over a proper stream. -/
theorem eq_nil_of_decode (h : Spelled bytes) (hd : Event.decode bytes = none) : bytes = [] := by
  obtain ⟨es, he, rfl⟩ := h
  cases es with
  | nil => rfl
  | cons e es =>
    rw [List.flatMap_cons, Event.decode_encode (he e (by simp)).encodable] at hd
    cases hd

/-- A walk over a proper stream meets proper events only. -/
theorem of_decode {e : Event} {after : List UInt8} (h : Spelled bytes)
    (hd : Event.decode bytes = some (e, after)) : e.Proper ∧ Spelled after := by
  obtain ⟨es, he, rfl⟩ := h
  cases es with
  | nil => cases hd
  | cons d es =>
    have hp : d.Proper := he d (by simp)
    rw [List.flatMap_cons, Event.decode_encode hp.encodable] at hd
    cases hd
    exact ⟨hp, es, fun c hc => he c (by simp [hc]), rfl⟩

end Spelled

namespace Voice

variable (table : IncrementTable) (rate : Nat) {v : Voice}

/-- A voice moves in its stream only past the event ahead, or back to the start. -/
theorem next_ahead (v : Voice) :
    (v.next table rate).2.ahead = v.ahead ∨ (v.next table rate).2.ahead = v.part.stream ∨
      ∃ e, Event.decode v.ahead = some (e, (v.next table rate).2.ahead) := by
  have hs := step_next table rate v
  generalize (v.next table rate).2 = v' at hs
  cases hs with
  | idle | within | stop => exact .inl rfl
  | rest _ _ found | note _ _ found => exact .inr (.inr ⟨_, found⟩)
  | rewind => exact .inr (.inl rfl)

/-- A voice whose stream holds proper events has only such events ahead of it. -/
theorem spelled_ahead {p : Part} (h : Spelled p.stream) (n : Nat) :
    Spelled (draw (next table rate) n (start p)).2.ahead := by
  have hk (v : Voice) (hv : v.part = p ∧ Spelled v.ahead) :
      (v.next table rate).2.part = p ∧ Spelled (v.next table rate).2.ahead := by
    obtain ⟨hp, hs⟩ := hv
    refine ⟨(next_part table rate v).trans hp, ?_⟩
    rcases next_ahead table rate v with ha | ha | ⟨e, ha⟩
    · rw [ha]
      exact hs
    · rw [ha, hp]
      exact h
    · exact (hs.of_decode ha).2
  exact (draw_keeps hk n ⟨rfl, h⟩).2

end Voice

namespace Score

variable {timing : Timing}

theorem Token.events_ne_nil {t : Token} {es : List Event} (h : t.events timing = .ok es) :
    es ≠ [] := by
  unfold Token.events at h
  split at h
  · cases h
  · dsimp only at h
    repeat' split at h
    all_goals cases h
    all_goals simp

theorem Token.encode_ne_nil {cs : List Char} {bytes : List UInt8}
    (h : Token.encode timing cs = .ok bytes) : bytes ≠ [] := by
  unfold Token.encode at h
  split at h
  · cases h
  · obtain ⟨es, he, rfl⟩ := map_ok h
    obtain ⟨e, es, rfl⟩ := List.exists_cons_of_ne_nil (Token.events_ne_nil he)
    cases e <;> simp [Event.encode]

theorem encodeWords_ne_nil {number : Nat} {ws : List (List Char)} {bytes : List UInt8}
    (hw : ws ≠ []) (h : encodeWords timing number ws [] = .ok bytes) : bytes ≠ [] := by
  obtain ⟨w, ws, rfl⟩ := List.exists_cons_of_ne_nil hw
  rw [encodeWords_cons] at h
  split at h
  · cases h
  · rename_i first hf
    obtain ⟨more, _, rfl⟩ := map_ok h
    simp [Token.encode_ne_nil hf]

def Worded (ls : List Line) : Prop := ls ≠ [] ∧ ∀ line ∈ ls, Text.words line.text ≠ []

theorem encodeLines_ne_nil {ls : List Line} {bytes : List UInt8} (hl : Worded ls)
    (h : encodeLines timing ls [] = .ok bytes) : bytes ≠ [] := by
  obtain ⟨hne, hw⟩ := hl
  obtain ⟨line, ls, rfl⟩ := List.exists_cons_of_ne_nil hne
  rw [encodeLines_cons] at h
  split at h
  · cases h
  · rename_i first hf
    obtain ⟨more, _, rfl⟩ := map_ok h
    simp [encodeWords_ne_nil (hw line (by simp)) hf]

theorem encodeTracks_ne_nil {parts : List (List Line × Generator)} {ts : List Track}
    (hw : ∀ part ∈ parts, Worded part.1) (h : encodeTracks timing parts = .ok ts) :
    ∀ t ∈ ts, t.data ≠ [] := by
  induction parts generalizing ts with
  | nil => cases h; simp
  | cons part parts ih =>
    obtain ⟨ls, g⟩ := part
    unfold encodeTracks at h
    split at h
    · cases h
    · rename_i data hd
      obtain ⟨more, hm, rfl⟩ := map_ok h
      intro t ht
      rcases List.mem_cons.mp ht with rfl | ht
      · exact encodeLines_ne_nil (hw (ls, g) (by simp)) hd
      · exact ih (fun part hp => hw part (by simp [hp])) hm t ht

namespace Layout

variable {kept : Line → Prop} {l l' : Layout} {line : Line}

def Filled (kept : Line → Prop) (l : Layout) : Prop :=
  ∀ ls ∈ l.tracks, ls ≠ [] ∧ ∀ line ∈ ls, kept line

/-- A line is added to a track, and no track loses any. -/
theorem Filled.add (h : l.Filled kept) (hk : line.text ≠ [] → kept line)
    (ha : l.add line = .ok l') : l'.Filled kept := by
  unfold Layout.add at ha
  split at ha
  · cases ha
    exact h
  · rename_i hb
    have hline : kept line := hk (by simpa using hb)
    split at ha
    · cases ha
      intro ls hm
      rcases List.mem_append.mp hm with hm | hm
      · exact h ls hm
      · rw [List.mem_singleton.mp hm]
        simpa using hline
    · split at ha
      · rename_i hr
        cases ha
        intro ls hm
        obtain ⟨i, hi, rfl⟩ := List.getElem_of_mem hm
        have hi' : i < l.tracks.length := by simpa using hi
        obtain ⟨hne, hall⟩ := h _ (List.getElem_mem hi')
        rw [List.getElem_modify]
        split
        · refine ⟨by simp, ?_⟩
          intro d hd
          rcases List.mem_append.mp hd with hd | hd
          · exact hall d hd
          · rw [List.mem_singleton.mp hd]
            exact hline
        · exact ⟨hne, hall⟩
      · cases ha

theorem Filled.addAll (h : l.Filled kept) {body : List Line}
    (hk : ∀ line ∈ body, line.text ≠ [] → kept line) (ha : l.addAll body = .ok l') :
    l'.Filled kept := by
  induction body generalizing l with
  | nil => cases ha; exact h
  | cons line body ih =>
    unfold Layout.addAll at ha
    cases hl : l.add line with
    | error e => rw [hl] at ha; cases ha
    | ok next =>
      rw [hl] at ha
      exact ih (h.add (hk line (by simp)) hl) (fun d hd => hk d (by simp [hd])) ha

theorem arrange_filled {body : List Line} {rows : List (List Line)}
    (hk : ∀ line ∈ body, line.text ≠ [] → kept line) (h : arrange body = .ok rows) :
    rows ≠ [] ∧ ∀ ls ∈ rows, ls ≠ [] ∧ ∀ line ∈ ls, kept line := by
  unfold arrange at h
  split at h
  · cases h
  · rename_i l hl
    have hf : l.Filled kept := Filled.addAll (l := {}) (by simp [Filled]) hk hl
    split at h
    · cases h
    · rename_i he
      cases h
      exact ⟨by simpa using he, hf⟩

end Layout

/-- A line that is not blank has a token. -/
theorem words_of_line {text : List Char} {line : Line} (hm : line ∈ lines text)
    (hne : line.text ≠ []) : Text.words line.text ≠ [] := by
  obtain ⟨i, hi, rfl⟩ := List.mem_mapIdx.mp hm
  simp only [List.getElem_map] at hne ⊢
  obtain ⟨c, hc, hb⟩ := Text.exists_not_blank hne
  exact Text.words_ne_nil hc hb

/-- No track of a score is left without a token. -/
theorem tracks_of_load {text : String} {song : Song} (h : load text = .ok song) :
    song.tracks ≠ [] ∧ ∀ t ∈ song.tracks, t.data ≠ [] := by
  obtain ⟨header, body, settings, rows, tracks, hs, _, hr, _, ht, hl, rfl⟩ := load_cases h
  have hw : ∀ line ∈ body, line.text ≠ [] → Text.words line.text ≠ [] :=
    fun line hm => words_of_line (List.mem_of_mem_filter ((sift_eq_ok_iff.mp hs).2 ▸ hm))
  obtain ⟨hne, hrows⟩ := Layout.arrange_filled hw hr
  refine ⟨?_, encodeTracks_ne_nil (fun part hp => hrows _ (List.of_mem_zip hp).1) ht⟩
  intro (h0 : tracks = [])
  rw [h0] at hl
  exact hne (List.length_eq_zero_iff.mp hl.symm)

/-- A score loads with a rate, an exponent for its tracks, and at least one track. Every track
loops, and its stream is the bytes of proper events and nothing else: pitches of the table, notes
and rests that last, rests that one byte holds. However long a voice plays such a track, the bytes
ahead of it begin with a proper event, or there are none. -/
theorem load_streams_well_formed {text : String} {song : Song} (h : load text = .ok song) :
    song.tracks ≠ [] ∧ 1 ≤ song.samplesPerTick.toNat ∧
      song.attenuation = attenuationFor song.tracks.length ∧
      ∀ t ∈ song.tracks, t.looping = true ∧ t.data ≠ [] ∧
        (events t.data).flatMap Event.encode = t.data ∧
        (∀ pitch ticks, Event.note pitch ticks ∈ events t.data →
          pitch.toNat ≤ 71 ∧ 1 ≤ ticks.toNat ∧ ticks.toNat ≤ 255) ∧
        (∀ ticks, Event.rest ticks ∈ events t.data → 1 ≤ ticks.toNat ∧ ticks.toNat ≤ 127) ∧
        ∀ (table : IncrementTable) (rate n : Nat),
          let v := (draw (Voice.next table rate) n (Voice.start t.part)).2
          (Event.decode v.ahead = none → v.ahead = []) ∧
          ∀ e after, Event.decode v.ahead = some (e, after) → e.Proper := by
  have hl := loaded_of_load h
  obtain ⟨hne, hdata⟩ := tracks_of_load h
  refine ⟨hne, ?_, hl.attenuation, ?_⟩
  · apply Nat.pos_of_ne_zero
    intro h0
    exact hl.rate (UInt16.toNat_inj.mp h0)
  · intro t ht
    have hs := hl.spelled t ht
    refine ⟨hl.looping t ht, hdata t ht, hs.flatMap_encode_events, ?_, ?_, ?_⟩
    · intro pitch ticks hm
      have hp : pitch.toNat < 72 ∧ 1 ≤ ticks.toNat := hs.events_proper _ hm
      exact ⟨Nat.le_of_lt_succ hp.1, hp.2, Nat.le_of_lt_succ ticks.toNat_lt⟩
    · intro ticks hm
      exact hs.events_proper _ hm
    · intro table rate n v
      have hv : Spelled v.ahead := Voice.spelled_ahead table rate hs n
      exact ⟨hv.eq_nil_of_decode, fun e after hd => (hv.of_decode hd).1⟩

/-- The highest pitch cut short, the longest note, and the longest rest in a block of its own. -/
theorem load_streams_of_limits :
    let text :=
      "> samps_per_tick: 2\n> generators: saw, noise93\n> ticks_per_whole: 8\n> cut_ticks: 1\n\nb5=4+\nc0-255\n\n/-127"
    let first : Track := { data := [71, 1, 129, 255], generator := .saw }
    let song : Song :=
      { samplesPerTick := 2, attenuation := 1
        tracks := [first, { data := [0, 255], generator := .noise93 }] }
    load text = .ok song ∧ first ∈ song.tracks ∧
      (events first.data).flatMap Event.encode = first.data ∧
      Event.rest 127 ∈ events first.data ∧ (127 : UInt8).toNat ≤ 127 ∧
      ∀ e after, Event.decode (draw (Voice.next .standard 2) 2 (Voice.start first.part)).2.ahead =
        some (e, after) → e.Proper := by
  intro text first song
  have ht : load text = .ok song := by
    unfold text song first
    rfl
  have hm : first ∈ song.tracks := by simp [song]
  have hr : Event.rest 127 ∈ events first.data := by decide
  obtain ⟨_, _, he, _, hrest, hv⟩ := (load_streams_well_formed ht).2.2.2 first hm
  exact ⟨ht, hm, he, hr, (hrest 127 hr).2, (hv .standard 2 2).2⟩

end Score

end Polysynth
