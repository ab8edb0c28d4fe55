import Polysynth.Proofs.Playback

namespace Polysynth.Mixer

variable {m : Mixer} {d : Desk} {p : Part}

/-- The one reason to refuse a part of a mixer that is not overfull. -/
def refusal (m : Mixer) : MixError :=
  if fits (m.voices.length + 1) m.attenuation then .tooManyTracks m.capacity
  else .attenuation (m.voices.length + 1) m.attenuation

/-- A mixer has no room when it is full or when its exponent fits no more voices, and then it says
the latter first. -/
theorem add_cases (h : m.voices.length ≤ m.capacity) (p : Part) :
    (m.HasRoom ∧ m.add p = .ok { m with voices := m.voices ++ [Voice.start p] }) ∨
    ((m.voices.length = m.capacity ∨ fits (m.voices.length + 1) m.attenuation = false) ∧
      m.add p = .error m.refusal) := by
  by_cases hr : m.HasRoom
  · exact .inl ⟨hr, add_of_room hr p⟩
  · right
    cases hf : fits (m.voices.length + 1) m.attenuation with
    | false => exact ⟨.inr rfl, by simp [add, refusal, hf]⟩
    | true =>
      have hc : m.voices.length = m.capacity :=
        Nat.le_antisymm h (Nat.not_lt.mp fun hlt => hr ⟨hf, hlt⟩)
      have hlt : m.capacity < m.voices.length + 1 := by omega
      exact ⟨.inl hc, by simp [add, refusal, hf, hlt]⟩

theorem add_error_iff (h : m.voices.length ≤ m.capacity) (p : Part) :
    (∃ e, m.add p = .error e) ↔
      m.voices.length = m.capacity ∨ fits (m.voices.length + 1) m.attenuation = false := by
  rcases add_cases h p with ⟨⟨hf, hc⟩, ha⟩ | ⟨hr, ha⟩
  · rw [ha]
    constructor
    · rintro ⟨e, he⟩
      cases he
    · rintro (hl | hl)
      · omega
      · rw [hf] at hl
        cases hl
  · exact ⟨fun _ => hr, fun _ => ⟨_, ha⟩⟩

theorem after_of_refused {e : MixError} (h : m.add p = .error e) : m.after (.add p) = m := by
  simp only [after, h]
  rfl

/-- No call makes a mixer overfull. -/
theorem length_after (h : m.voices.length ≤ m.capacity) (c : Call) :
    (m.after c).voices.length ≤ (m.after c).capacity := by
  cases c with
  | add p =>
    rcases add_cases h p with ⟨⟨_, hc⟩, ha⟩ | ⟨_, ha⟩
    · simpa [after, ha, Except.toOption] using Nat.succ_le_of_lt hc
    · rw [after_of_refused ha]
      exact h
  | next => simpa [after, next_voices] using h
  | reset => simpa [after, reset] using h

namespace Desk

theorem length_run (h : d.mixer.voices.length ≤ d.mixer.capacity) (calls : List Call) :
    (d.run calls).mixer.voices.length ≤ (d.run calls).mixer.capacity := by
  induction calls generalizing d with
  | nil => exact h
  | cons c calls ih => exact ih (d := d.after c) (length_after h c)

theorem entries_after (d : Desk) (c : Call) : d.entries.length ≤ (d.after c).entries.length := by
  cases c with
  | add p =>
    simp only [Desk.after]
    split <;> simp
  | next => simp [Desk.after]
  | reset => simp [Desk.after]

/-- The record of parts never gets shorter. -/
theorem entries_run (d : Desk) (calls : List Call) :
    d.entries.length ≤ (d.run calls).entries.length := by
  induction calls generalizing d with
  | nil => exact Nat.le_refl _
  | cons c calls ih => exact Nat.le_trans (d.entries_after c) (ih (d.after c))

/-- A reset takes a mixer to where its parts alone would have brought it. -/
theorem Faithful.reset (h : d.Faithful m) :
    d.mixer.reset = { m with voices := (d.entries.map Entry.part).map Voice.start } := by
  rw [Mixer.reset, h.mixer]
  simp only [List.map_map]
  congr 2
  funext e
  exact e.reset_voice _ _

theorem Faithful.addAll (h : d.Faithful m) (hv : m.voices = [])
    (hc : d.mixer.voices.length ≤ d.mixer.capacity) :
    m.addAll (d.entries.map Entry.part) = .ok d.mixer.reset := by
  rw [h.mixer] at hc
  simp only [List.length_map] at hc
  have hall : ∃ fresh, m.addAll (d.entries.map Entry.part) = .ok fresh :=
    addAll_of_fits (by simpa [hv] using h.fits) (by simpa [hv] using hc)
  obtain ⟨fresh, hf⟩ := hall
  rw [hf, voices_of_addAll hf, h.reset, hv, List.nil_append]

end Desk

/-- A mixer whose voices have all stopped gives silence and stays as it is. -/
theorem next_of_finished (h : m.finished = true) : m.next = (silence, m) := by
  have hv : ∀ v ∈ m.voices, v.next m.table m.samplesPerTick.toNat = (silence, v) := by
    intro v hv
    apply Voice.next_of_inactive
    simpa using List.all_eq_true.mp h v hv
  have hs : m.next.1 = silence := by
    rw [next_sample]
    apply mix_silence
    intro x hx
    obtain ⟨v, hm, rfl⟩ := List.mem_map.mp hx
    rw [hv v hm]
  have hm : m.next.2 = m := by
    rw [next_voices, List.map_congr_left (fun v hm => congrArg Prod.snd (hv v hm)), List.map_id']
  exact Prod.ext hs hm

/-- Such a mixer is moved by no call but a reset or a part that it takes. -/
theorem Desk.after_of_finished (h : m.finished = true) (hc : m.voices.length ≤ m.capacity)
    {c : Call} (hr : c ≠ .reset) (he : (Desk.after { mixer := m } c).entries = []) :
    Desk.after { mixer := m } c = { mixer := m } := by
  cases c with
  | add p =>
    rcases add_cases hc p with ⟨_, ha⟩ | ⟨_, ha⟩
    · simp [Desk.after, ha, Except.isOk, Except.toBool] at he
    · simp only [Desk.after, after_of_refused ha, ha]
      rfl
  | next => simp [Desk.after, Mixer.after, next_of_finished h]
  | reset => exact absurd rfl hr

theorem outputs_of_finished (h : m.finished = true) (hc : m.voices.length ≤ m.capacity)
    {later : List Call} (hr : Call.reset ∉ later)
    (he : (Desk.run { mixer := m } later).entries = []) :
    (Desk.run { mixer := m } later).mixer.finished = true ∧ ∀ s ∈ m.outputs later, s = silence := by
  induction later with
  | nil => exact ⟨h, by simp [outputs]⟩
  | cons c later ih =>
    have hrc : c ≠ .reset := by
      rintro rfl
      exact hr List.mem_cons_self
    have hrl : Call.reset ∉ later := fun hm => hr (List.mem_cons_of_mem c hm)
    have hd : Desk.after { mixer := m } c = { mixer := m } := by
      apply Desk.after_of_finished h hc hrc
      have hl := Desk.entries_run (Desk.after { mixer := m } c) later
      change (Desk.run (Desk.after { mixer := m } c) later).entries = [] at he
      rw [he] at hl
      exact List.eq_nil_of_length_eq_zero (Nat.le_zero.mp hl)
    change (Desk.run (Desk.after { mixer := m } c) later).entries = [] at he
    change (Desk.run (Desk.after { mixer := m } c) later).mixer.finished = true ∧ _
    rw [hd] at he ⊢
    obtain ⟨hf, hs⟩ := ih hrl he
    refine ⟨hf, ?_⟩
    cases c with
    | add p =>
      have hm : m.after (.add p) = m := congrArg Desk.mixer hd
      rw [outputs, hm]
      · exact hs
      · simp
    | next =>
      rw [outputs, next_of_finished h]
      exact List.forall_mem_cons.mpr ⟨rfl, hs⟩
    | reset => exact absurd rfl hrc

/-- Whatever a mixer was asked before, it refuses a part exactly when it is full or its exponent
does not fit one more voice, names the exponent where both are so, and stays as it is. A reset makes
it the mixer that would be built anew from the parts it has taken, so it gives the samples of that
one. Once all its voices have stopped it gives silence, until it is reset or takes a part. -/
theorem reset_restarts {capacity : Nat} {table : IncrementTable} {samplesPerTick : UInt16}
    {attenuation : Nat} (h : empty capacity table samplesPerTick attenuation = .ok m)
    (calls : List Call) :
    let d := Desk.run { mixer := m } calls
    let now := d.mixer
    (∀ p,
      ((∃ e, now.add p = .error e) ↔
        now.voices.length = capacity ∨ fits (now.voices.length + 1) attenuation = false) ∧
      ∀ e, now.add p = .error e → now.after (.add p) = now ∧
        e = if fits (now.voices.length + 1) attenuation then .tooManyTracks capacity
          else .attenuation (now.voices.length + 1) attenuation) ∧
    (∃ fresh, (empty capacity table samplesPerTick attenuation).bind
        (fun built => built.addAll (d.entries.map Entry.part)) = .ok fresh ∧
      now.reset = fresh ∧ ∀ k, draw next k now.reset = draw next k fresh) ∧
    (now.finished = true → ∀ later, Call.reset ∉ later →
      (Desk.run { mixer := now } later).entries = [] →
      (Desk.run { mixer := now } later).mixer.finished = true ∧
        ∀ s ∈ now.outputs later, s = silence) := by
  intro d now
  obtain ⟨hm, _⟩ := empty_cases h
  have hv : m.voices = [] := by rw [hm]
  have hd : d.Faithful m := (Desk.Faithful.start hv).run calls
  have hroom : now.voices.length ≤ now.capacity := by
    apply Desk.length_run
    rw [hv]
    exact Nat.zero_le _
  have hcapacity : now.capacity = capacity := by simp only [now, hd.mixer, hm]
  have hexponent : now.attenuation = attenuation := by simp only [now, hd.mixer, hm]
  refine ⟨?_, ?_, ?_⟩
  · intro p
    have hi := add_error_iff hroom p
    rw [hcapacity, hexponent] at hi
    refine ⟨hi, ?_⟩
    intro e he
    refine ⟨after_of_refused he, ?_⟩
    rcases add_cases hroom p with ⟨_, ha⟩ | ⟨_, ha⟩
    · rw [ha] at he
      cases he
    · rw [ha] at he
      rw [← Except.error.inj he, refusal, hcapacity, hexponent]
  · refine ⟨now.reset, ?_, rfl, fun _ => rfl⟩
    rw [h]
    exact hd.addAll hv hroom
  · intro hf later hr he
    exact outputs_of_finished hf hroom hr he

/-- A note of noise that has ended, on a mixer that has room for it alone. -/
theorem reset_restarts_noise :
    let p : Part := { stream := [60, 2], generator := .noise93, looping := false }
    let m : Mixer := { capacity := 1, table := .standard, samplesPerTick := 1, attenuation := 0 }
    let d := Desk.run { mixer := m } [.add p, .next, .next, .next]
    let now := d.mixer
    empty 1 .standard 1 0 = .ok m ∧ (∃ e, now.add p = .error e) ∧
      (∀ e, now.add p = .error e → e = .attenuation 2 0) ∧
      (∃ fresh, m.addAll [p] = .ok fresh ∧ now.reset = fresh) ∧ now.finished = true ∧
      ∀ s ∈ now.outputs [.next, .add p, .next], s = silence := by
  intro p m d now
  have hm : empty 1 .standard 1 0 = .ok m := rfl
  have hp : d.entries.map Entry.part = [p] := by decide
  have hv : now.voices.length = 1 := by decide
  have hfinished : now.finished = true := by decide
  obtain ⟨hadd, ⟨fresh, hf, hr, _⟩, hs⟩ := reset_restarts hm [.add p, .next, .next, .next]
  obtain ⟨hi, he⟩ := hadd p
  rw [hm, Except.bind, hp] at hf
  refine ⟨hm, hi.mpr (.inl hv), ?_, ⟨fresh, hf, hr⟩, hfinished, ?_⟩
  · intro e ha
    obtain ⟨_, hn⟩ := he e ha
    change e = if fits (now.voices.length + 1) 0 then _ else _ at hn
    rw [hv] at hn
    exact hn
  · exact (hs hfinished [.next, .add p, .next] (by simp) (by decide)).2

end Polysynth.Mixer
