import Polysynth.Wave

namespace Polysynth

variable {σ : Type}

def sampleAfter (next : σ → UInt8 × σ) (n : Nat) (s : σ) : UInt8 := (next (draw next n s).2).1

theorem draw_zero (next : σ → UInt8 × σ) (s : σ) : draw next 0 s = (#[], s) := rfl

theorem draw_one (next : σ → UInt8 × σ) (s : σ) : draw next 1 s = (#[(next s).1], (next s).2) := rfl

/-- A long draw is a short one, and then a draw from the source that it leaves. -/
theorem draw_add (next : σ → UInt8 × σ) (m n : Nat) (s : σ) :
    draw next (m + n) s =
      ((draw next m s).1 ++ (draw next n (draw next m s).2).1,
        (draw next n (draw next m s).2).2) := by
  induction m generalizing s with
  | zero => simp [draw_zero]
  | succ m ih =>
    rw [Nat.add_right_comm, draw_succ, ih, draw_succ next m]
    simp only [Array.append_assoc]

theorem draw_succ_last (next : σ → UInt8 × σ) (n : Nat) (s : σ) :
    draw next (n + 1) s =
      ((draw next n s).1.push (sampleAfter next n s), (next (draw next n s).2).2) := by
  rw [draw_add, draw_one, Array.append_singleton]
  rfl

theorem toList_draw_add (next : σ → UInt8 × σ) (m n : Nat) (s : σ) :
    (draw next (m + n) s).1.toList =
      (draw next m s).1.toList ++ (draw next n (draw next m s).2).1.toList := by
  rw [draw_add, Array.toList_append]

theorem length_toList_draw (next : σ → UInt8 × σ) (n : Nat) (s : σ) :
    (draw next n s).1.toList.length = n := by
  rw [Array.length_toList, size_draw]

/-- A draw is a prefix of every longer draw. -/
theorem take_draw (next : σ → UInt8 × σ) {m n : Nat} (h : m ≤ n) (s : σ) :
    (draw next n s).1.toList.take m = (draw next m s).1.toList := by
  obtain ⟨k, rfl⟩ := Nat.exists_eq_add_of_le h
  rw [toList_draw_add]
  exact List.take_left' (length_toList_draw next m s)

theorem getElem?_draw_succ (next : σ → UInt8 × σ) (n : Nat) (s : σ) :
    (draw next (n + 1) s).1.toList[n]? = some (sampleAfter next n s) := by
  have hl : (draw next n s).1.toList.length = n := length_toList_draw next n s
  rw [draw_succ_last, Array.toList_push, List.getElem?_append_right (Nat.le_of_eq hl), hl,
    Nat.sub_self]
  rfl

/-- Only the first step of a draw sees the source as it is. -/
theorem draw_eq_of_next_eq {next : σ → UInt8 × σ} {s t : σ} (h : next s = next t) {n : Nat}
    (hn : 0 < n) : draw next n s = draw next n t := by
  obtain ⟨n, rfl⟩ := Nat.exists_eq_add_of_lt hn
  rw [Nat.zero_add, draw_succ, draw_succ, h]

/-- What one sample keeps, any number of them keep. -/
theorem draw_keeps {next : σ → UInt8 × σ} {kept : σ → Prop}
    (step : ∀ s, kept s → kept (next s).2) (n : Nat) {s : σ} (h : kept s) :
    kept (draw next n s).2 := by
  induction n generalizing s with
  | zero => exact h
  | succ n ih =>
    rw [draw_succ]
    exact ih (step s h)

end Polysynth
