import Polysynth.Song

namespace Polysynth

theorem utf8ByteSize_ofList_cons (c : Char) (cs : List Char) :
    (String.ofList (c :: cs)).utf8ByteSize = c.utf8Size + (String.ofList cs).utf8ByteSize := by
  rw [← List.singleton_append, String.ofList_append, String.utf8ByteSize_append,
    ← String.singleton_eq_ofList, String.utf8ByteSize_singleton]

section Clip

variable (room : Nat) (cs : List Char)

theorem clip_isPrefix : clip room cs <+: cs := by
  induction cs generalizing room with
  | nil => exact List.prefix_rfl
  | cons c cs ih =>
    rw [clip]
    split
    · exact List.cons_prefix_cons.mpr ⟨rfl, ih _⟩
    · exact List.nil_prefix

theorem utf8ByteSize_clip_le : (String.ofList (clip room cs)).utf8ByteSize ≤ room := by
  induction cs generalizing room with
  | nil => simp [clip]
  | cons c cs ih =>
    rw [clip]
    split
    · rename_i hc
      rw [utf8ByteSize_ofList_cons]
      have := ih (room - c.utf8Size)
      omega
    · simp

variable {room cs}

/-- Every part of a text that begins it and has room is kept. -/
theorem prefix_clip {kept : List Char} (hp : kept <+: cs)
    (hk : (String.ofList kept).utf8ByteSize ≤ room) : kept <+: clip room cs := by
  induction cs generalizing room kept with
  | nil => exact hp
  | cons c cs ih =>
    cases kept with
    | nil => exact List.nil_prefix
    | cons d kept =>
      obtain ⟨rfl, htail⟩ := List.cons_prefix_cons.mp hp
      rw [utf8ByteSize_ofList_cons] at hk
      rw [clip, if_pos (by omega)]
      exact List.cons_prefix_cons.mpr ⟨rfl, ih htail (by omega)⟩

/-- What has room is kept whole. -/
theorem clip_of_fits (h : (String.ofList cs).utf8ByteSize ≤ room) : clip room cs = cs :=
  (clip_isPrefix room cs).eq_of_length_le (prefix_clip List.prefix_rfl h).length_le

/-- The character after what is kept has no room. -/
theorem clip_next {c : Char} {rest : List Char} (h : clip room cs ++ c :: rest = cs) :
    room < (String.ofList (clip room cs ++ [c])).utf8ByteSize := by
  apply Nat.lt_of_not_le
  intro hf
  have hp : clip room cs ++ [c] <+: cs := ⟨rest, by rwa [List.append_assoc]⟩
  have hl := (prefix_clip hp hf).length_le
  rw [List.length_append] at hl
  exact Nat.not_succ_le_self _ hl

end Clip

namespace Song

theorem toList_title_setTitle (song : Song) (text : String) :
    (song.setTitle text).title.toList = clip titleRoom text.toList :=
  String.toList_ofList

theorem setTitle_of_fits {song : Song} (h : song.title.utf8ByteSize ≤ titleRoom) :
    song.setTitle song.title = song := by
  rw [← String.ofList_toList (s := song.title)] at h
  rw [setTitle, clip_of_fits h, String.ofList_toList]

/-- A song is given the longest part of a text that begins it, ends between two characters and takes
at most 32 bytes: all of the text, or as much that its next character would be too much. The title
before does not matter, and a title that has room is its own part. Nothing else of the song
changes. -/
theorem setTitle_keeps_longest (song : Song) (text : String) :
    let s := song.setTitle text
    s.title.toList <+: text.toList ∧
    s.title.utf8ByteSize ≤ 32 ∧
    (∀ kept : String, kept.toList <+: text.toList → kept.utf8ByteSize ≤ 32 →
      kept.toList <+: s.title.toList) ∧
    (s.title = text ∨ ∃ c rest, text.toList = s.title.toList ++ c :: rest ∧
      32 < (s.title.push c).utf8ByteSize) ∧
    (∀ other : Song, (other.setTitle text).title = s.title) ∧
    (song.title.utf8ByteSize ≤ 32 → song.setTitle song.title = song) ∧
    s.setTitle s.title = s ∧
    { s with title := song.title } = song := by
  intro s
  have ht : s.title.toList = clip 32 text.toList := toList_title_setTitle song text
  have hfits : s.title.utf8ByteSize ≤ 32 := utf8ByteSize_clip_le 32 text.toList
  refine ⟨?_, hfits, ?_, ?_, fun _ => rfl, setTitle_of_fits, setTitle_of_fits hfits, rfl⟩
  · rw [ht]
    exact clip_isPrefix 32 text.toList
  · intro kept hp hk
    rw [← String.ofList_toList (s := kept)] at hk
    rw [ht]
    exact prefix_clip hp hk
  · obtain ⟨rest, hr⟩ := clip_isPrefix 32 text.toList
    cases rest with
    | nil =>
      left
      rw [List.append_nil] at hr
      exact String.toList_inj.mp (ht.trans hr)
    | cons c rest =>
      right
      refine ⟨c, rest, ?_, ?_⟩
      · rw [ht, hr]
      · rw [← String.ofList_toList (s := s.title.push c), String.toList_push, ht]
        exact clip_next hr

/-- A character of four bytes does not fit the last two, and the one after it is not taken in its
place. -/
theorem setTitle_keeps_longest_at_wide_character :
    let song : Song := { title := "before", samplesPerTick := 7, attenuation := 3 }
    let kept := "012345678901234567890123456789"
    let s := song.setTitle (kept ++ "😀!")
    s.title = kept ∧
    (kept.toList <+: (kept ++ "😀!").toList ∧ kept.utf8ByteSize ≤ 32 ∧
      kept.toList <+: s.title.toList) ∧
    song.title.utf8ByteSize ≤ 32 ∧ song.setTitle song.title = song := by
  intro song kept s
  obtain ⟨_, _, hmost, _, _, hown, _⟩ := setTitle_keeps_longest song (kept ++ "😀!")
  have hp : kept.toList <+: (kept ++ "😀!").toList := by
    rw [String.toList_append]
    exact List.prefix_append _ _
  have hk : kept.utf8ByteSize ≤ 32 := by decide +kernel
  have hroom : song.title.utf8ByteSize ≤ 32 := by decide +kernel
  exact ⟨by decide +kernel, ⟨hp, hk, hmost kept hp hk⟩, hroom, hown hroom⟩

end Song

end Polysynth
