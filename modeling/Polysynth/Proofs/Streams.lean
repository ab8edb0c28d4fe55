import Polysynth.Event

namespace Polysynth

/-- The event is read back from its bytes: a pitch leaves the top bit free, and a rest fits the
other seven. -/
def Event.Encodable : Event → Prop
  | note p _ => p.toNat < 0x80
  | rest t => t.toNat ≤ maxRestTicks

theorem toNat_low_bits (b : UInt8) : (b &&& 0x7f).toNat = b.toNat % 128 := by
  rw [UInt8.toNat_and]
  exact Nat.and_two_pow_sub_one_eq_mod b.toNat 7

theorem toNat_rest_byte (t : UInt8) : (0x80 ||| (t &&& 0x7f)).toNat = 128 + t.toNat % 128 := by
  have hlt : t.toNat % 128 < 128 := Nat.mod_lt _ (by decide)
  rw [UInt8.toNat_or, toNat_low_bits]
  exact (Nat.two_pow_add_eq_or_of_lt (i := 7) hlt 1).symm

theorem rest_byte_marked (t : UInt8) : (0x80 : UInt8) ≤ 0x80 ||| (t &&& 0x7f) := by
  rw [UInt8.le_iff_toNat_le, toNat_rest_byte]
  exact Nat.le_add_right 128 _

theorem low_bits_of_rest {t : UInt8} (h : t.toNat ≤ maxRestTicks) :
    (0x80 ||| (t &&& 0x7f)) &&& 0x7f = t := by
  have hlt : t.toNat < 128 := Nat.lt_succ_of_le h
  apply UInt8.toNat_inj.mp
  rw [toNat_low_bits, toNat_rest_byte]
  omega

theorem rest_byte_of_marked {b : UInt8} (h : (0x80 : UInt8) ≤ b) :
    0x80 ||| (b &&& 0x7f &&& 0x7f) = b := by
  have hge : 128 ≤ b.toNat := UInt8.le_iff_toNat_le.mp h
  have hlt : b.toNat < 256 := b.toNat_lt
  apply UInt8.toNat_inj.mp
  rw [toNat_rest_byte, toNat_low_bits]
  omega

/-- The bytes of an event are read back whatever follows them. -/
theorem Event.decode_encode {e : Event} (h : e.Encodable) (after : List UInt8) :
    Event.decode (e.encode ++ after) = some (e, after) := by
  cases e with
  | note p t =>
    have hp : ¬ (0x80 : UInt8) ≤ p := by
      rw [UInt8.le_iff_toNat_le]
      exact Nat.not_le.mpr h
    exact if_neg hp
  | rest t =>
    have hd : Event.decode ((Event.rest t).encode ++ after) =
        some (.rest ((0x80 ||| (t &&& 0x7f)) &&& 0x7f), after) := if_pos (rest_byte_marked t)
    rw [hd, low_bits_of_rest h]

theorem events_encode_append {e : Event} (h : e.Encodable) (after : List UInt8) :
    events (e.encode ++ after) = e :: events after := by
  rw [events_eq_decode, Event.decode_encode h]

/-- Events are read back as they were written. -/
theorem events_flatMap_encode {es : List Event} (h : ∀ e ∈ es, e.Encodable) :
    events (es.flatMap Event.encode) = es := by
  induction es with
  | nil => rfl
  | cons e es ih =>
    rw [List.flatMap_cons, events_encode_append (h e (by simp)),
      ih (fun d hd => h d (by simp [hd]))]

/-- An event that was read is written as the bytes it was read from. -/
theorem Event.encode_append_of_decode {stream after : List UInt8} {e : Event}
    (h : Event.decode stream = some (e, after)) : e.Encodable ∧ e.encode ++ after = stream := by
  unfold Event.decode at h
  split at h
  · cases h
  · rename_i b bs
    by_cases hb : (0x80 : UInt8) ≤ b
    · rw [if_pos hb] at h
      cases h
      refine ⟨?_, congrArg (fun c => c :: after) (rest_byte_of_marked hb)⟩
      change (b &&& 0x7f).toNat ≤ 127
      rw [UInt8.toNat_and]
      exact Nat.and_le_right
    · rw [if_neg hb] at h
      split at h
      · cases h
      · cases h
        refine ⟨?_, rfl⟩
        change b.toNat < 128
        rw [UInt8.le_iff_toNat_le] at hb
        exact Nat.not_le.mp hb

/-- Bytes behind an event have no part in it. -/
theorem Event.decode_append {stream after : List UInt8} {e : Event}
    (h : Event.decode stream = some (e, after)) (more : List UInt8) :
    Event.decode (stream ++ more) = some (e, after ++ more) := by
  obtain ⟨he, rfl⟩ := Event.encode_append_of_decode h
  rw [List.append_assoc, Event.decode_encode he]

/-- No event can be read at the end, and at a last pitch byte that lacks its length. -/
theorem Event.decode_eq_none_iff {stream : List UInt8} :
    Event.decode stream = none ↔ stream = [] ∨ ∃ b, b < 0x80 ∧ stream = [b] := by
  match stream with
  | [] => simp [Event.decode]
  | [b] => simp [Event.decode]
  | b :: t :: bs =>
    by_cases hb : (0x80 : UInt8) ≤ b <;> simp [Event.decode, hb]

/-- Along the walk over a stream, one event after the other. -/
theorem walk_induction {holds : List UInt8 → Prop}
    (stop : ∀ stream, Event.decode stream = none → holds stream)
    (read : ∀ stream e after, Event.decode stream = some (e, after) → holds after → holds stream)
    (stream : List UInt8) : holds stream := by
  cases hd : Event.decode stream with
  | none => exact stop stream hd
  | some found =>
    obtain ⟨e, after⟩ := found
    have := Event.decode_length_lt hd
    exact read stream e after hd (walk_induction stop read after)
termination_by stream.length

def unread : List UInt8 → List UInt8
  | [] => []
  | [b] => if 0x80 ≤ b then [] else [b]
  | b :: t :: bs => if 0x80 ≤ b then unread (t :: bs) else unread bs

theorem unread_eq_decode (stream : List UInt8) :
    unread stream =
      match Event.decode stream with
      | none => stream
      | some (_, after) => unread after := by
  match stream with
  | [] => rfl
  | [b] => simp only [unread, Event.decode]; split <;> rfl
  | b :: t :: bs => rw [unread, Event.decode]; split <;> rfl

theorem decode_unread (stream : List UInt8) : Event.decode (unread stream) = none := by
  induction stream using walk_induction with
  | stop stream hd =>
    rw [unread_eq_decode, hd]
    exact hd
  | read stream e after hd ih =>
    rw [unread_eq_decode, hd]
    exact ih

/-- A stream is the events read from it and what is left unread. -/
theorem flatMap_encode_append_unread (stream : List UInt8) :
    (events stream).flatMap Event.encode ++ unread stream = stream := by
  induction stream using walk_induction with
  | stop stream hd => simp only [events_eq_decode stream, unread_eq_decode stream, hd]; rfl
  | read stream e after hd ih =>
    simp only [events_eq_decode stream, unread_eq_decode stream, hd, List.flatMap_cons,
      List.append_assoc, ih]
    exact (Event.encode_append_of_decode hd).2

/-- The walk over one stream and then another takes what the first left unread into the second. -/
theorem events_append (a b : List UInt8) :
    events (a ++ b) = events a ++ events (unread a ++ b) := by
  induction a using walk_induction with
  | stop a hd => simp only [events_eq_decode a, unread_eq_decode a, hd]; rfl
  | read a e after hd ih =>
    simp only [events_eq_decode a, unread_eq_decode a, hd]
    rw [events_eq_decode, Event.decode_append hd]
    simp only [ih, List.cons_append]

/-- The ticks of some events, however many bits it takes to tell them. -/
def totalTicks (es : List Event) : Nat := es.foldr (fun e ticks => e.ticks.toNat + ticks) 0

theorem totalTicks_append (es ds : List Event) :
    totalTicks (es ++ ds) = totalTicks es + totalTicks ds := by
  induction es with
  | nil => simp [totalTicks]
  | cons e es ih =>
    simp only [totalTicks] at ih
    simp only [totalTicks, List.cons_append, List.foldr_cons, ih, Nat.add_assoc]

/-- The count goes through just when its last sum fits, because no sum on the way is larger. -/
theorem foldlM_addTicks? (es : List Event) {count : Nat} (hc : count < UInt32.size) :
    es.foldlM Event.addTicks? count =
      if count + totalTicks es < UInt32.size then some (count + totalTicks es) else none := by
  induction es generalizing count with
  | nil => exact (if_pos hc).symm
  | cons e es ih =>
    have ht : count + totalTicks (e :: es) = count + e.ticks.toNat + totalTicks es :=
      (Nat.add_assoc _ _ _).symm
    rw [List.foldlM_cons, Event.addTicks?, ht]
    by_cases hs : count + e.ticks.toNat < UInt32.size
    · rw [if_pos hs]
      exact ih hs
    · rw [if_neg hs, if_neg (by omega)]
      rfl

/-- The count is exact up to the 32 bits it has, and fails beyond them. -/
theorem duration?_eq (stream : List UInt8) :
    duration? stream =
      if totalTicks (events stream) < UInt32.size then some (totalTicks (events stream)) else none := by
  have hz : 0 < UInt32.size := by decide
  have h := foldlM_addTicks? (events stream) hz
  rwa [Nat.zero_add] at h

theorem duration?_eq_some_iff {stream : List UInt8} {ticks : Nat} :
    duration? stream = some ticks ↔ totalTicks (events stream) = ticks ∧ ticks < UInt32.size := by
  rw [duration?_eq, Option.ite_none_right_eq_some, Option.some.injEq]
  constructor
  · rintro ⟨h, rfl⟩
    exact ⟨rfl, h⟩
  · rintro ⟨rfl, h⟩
    exact ⟨h, rfl⟩

/-- Lists of events that their bytes can hold are read back from them. Any stream at all is its
events written out again, and perhaps a last pitch byte that lacks its length: it is there exactly
when the walk stops before it. Streams that were read to their ends can be put together, and their
events and lengths add up, unless 32 bits cannot tell the sum. -/
theorem streams_decode_uniquely :
    (∀ es : List Event, (∀ e ∈ es, e.Encodable) → events (es.flatMap Event.encode) = es) ∧
    (∀ stream : List UInt8,
      let written := (events stream).flatMap Event.encode
      Event.decode (unread stream) = none ∧
      (written = stream ∨ written = stream.dropLast) ∧
      (written = stream ↔ unread stream = []) ∧
      ∀ b, stream = written ++ [b] ↔ b < 0x80 ∧ unread stream = [b]) ∧
    (∀ stream : List UInt8, duration? stream =
      if totalTicks (events stream) < UInt32.size then some (totalTicks (events stream)) else none) ∧
    ∀ a b : List UInt8, unread a = [] →
      events (a ++ b) = events a ++ events b ∧
        totalTicks (events (a ++ b)) = totalTicks (events a) + totalTicks (events b) ∧
        ∀ x y, duration? a = some x → duration? b = some y →
          duration? (a ++ b) = if x + y < UInt32.size then some (x + y) else none := by
  refine ⟨fun es => events_flatMap_encode, ?_, duration?_eq, ?_⟩
  · intro stream written
    have hw : written ++ unread stream = stream := flatMap_encode_append_unread stream
    have hd := decode_unread stream
    have hu := Event.decode_eq_none_iff.mp hd
    refine ⟨hd, ?_, ?_, ?_⟩
    · rcases hu with hu | ⟨b, _, hu⟩
      · rw [hu, List.append_nil] at hw
        exact .inl hw
      · rw [hu] at hw
        rw [← hw, List.dropLast_concat]
        exact .inr rfl
    · have hs : written ++ unread stream = written ↔ unread stream = [] :=
        List.append_right_eq_self
      rw [hw] at hs
      exact eq_comm.trans hs
    · intro b
      have hs : written ++ unread stream = written ++ [b] ↔ unread stream = [b] :=
        List.append_right_inj written
      rw [hw] at hs
      refine hs.trans ⟨?_, And.right⟩
      intro hb
      rcases hu with hu | ⟨c, hc, hu⟩
      · rw [hu] at hb
        cases hb
      · rw [hu] at hb
        cases hb
        exact ⟨hc, hu⟩
  · intro a b ha
    have he : events (a ++ b) = events a ++ events b := by
      rw [events_append, ha, List.nil_append]
    have ht : totalTicks (events (a ++ b)) = totalTicks (events a) + totalTicks (events b) := by
      rw [he, totalTicks_append]
    refine ⟨he, ht, ?_⟩
    intro x y hx hy
    rw [duration?_eq, ht, (duration?_eq_some_iff.mp hx).1, (duration?_eq_some_iff.mp hy).1]

/-- A tick byte that looks like a rest, and a pitch byte at the end. -/
theorem streams_decode_across_tick_byte :
    let es : List Event := [.note 127 133, .rest 0]
    let stream : List UInt8 := [127, 133, 128]
    es.flatMap Event.encode = stream ∧ events stream = es ∧ unread stream = [] ∧
      events (stream ++ [5]) = es ∧ duration? (stream ++ [5, 7]) = some (133 + 7) := by
  intro es stream
  obtain ⟨hr, _, _, ha⟩ := streams_decode_uniquely
  have hu : unread stream = [] := by decide
  have he : ∀ e ∈ es, e.Encodable := by
    intro e hm
    rcases List.mem_cons.mp hm with rfl | hm
    · exact Nat.lt_succ_self 127
    · rw [List.mem_singleton.mp hm]
      exact Nat.zero_le _
  exact ⟨rfl, hr es he, hu, (ha stream [5] hu).1,
    (ha stream [5, 7] hu).2.2 133 7 rfl rfl⟩

end Polysynth
