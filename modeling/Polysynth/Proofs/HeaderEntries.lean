import Polysynth.Proofs.Blocks

namespace Polysynth.Score

namespace Header

/-- The entries of one header, and those of another where the first has none. -/
def overlay (new old : Header) : Header where
  samplesPerTick := new.samplesPerTick.or old.samplesPerTick
  generators := new.generators.or old.generators
  ticksPerWhole := new.ticksPerWhole.or old.ticksPerWhole
  cutTicks := new.cutTicks.or old.cutTicks

def has (h : Header) : Key → Bool
  | .samplesPerTick => h.samplesPerTick.isSome
  | .generators => h.generators.isSome
  | .ticksPerWhole => h.ticksPerWhole.isSome
  | .cutTicks => h.cutTicks.isSome

def key? (text : List Char) : Option Key :=
  entry? text >>= fun (key, _) => Key.ofName? (String.ofList key)

variable {h h' new old top : Header} {key : Key} {text value : List Char} {fault : HeaderFault}

theorem overlay_assoc (a b c : Header) : (a.overlay b).overlay c = a.overlay (b.overlay c) := by
  simp [overlay, Option.or_assoc]

theorem empty_overlay (h : Header) : ({} : Header).overlay h = h := by
  simp [overlay]

theorem overlay_empty (h : Header) : h.overlay {} = h := by
  simp [overlay]

theorem has_overlay (new old : Header) (key : Key) :
    (new.overlay old).has key = (new.has key || old.has key) := by
  cases key <;> simp [has, overlay]

/-- An entry under others of its key is not to be seen. -/
theorem overlay_hidden (hk : ∀ key, new.has key = true → top.has key = true) (old : Header) :
    top.overlay (new.overlay old) = top.overlay old := by
  have hor {α : Type} {a b c : Option α} (hi : b.isSome = true → a.isSome = true) :
      a.or (b.or c) = a.or c := by
    cases a with
    | some x => rfl
    | none =>
      cases b with
      | none => rfl
      | some y => cases hi rfl
  simp only [overlay]
  rw [hor (hk .samplesPerTick), hor (hk .generators), hor (hk .ticksPerWhole), hor (hk .cutTicks)]

/-- An entry is read without regard to what the header has already. -/
theorem set_eq_overlay (h : Header) (key : Key) (value : List Char) :
    h.set key value = (({} : Header).set key value).map (fun new => new.overlay h) := by
  cases key with
  | samplesPerTick =>
    simp only [set]
    split
    · rfl
    · split
      · rfl
      · simp [Except.map, overlay]
  | generators =>
    simp only [set]
    cases readGenerators ((Text.pieces (fun c => c == ',') value).map Text.trim) <;>
      simp [Except.map, overlay]
  | ticksPerWhole =>
    simp only [set]
    split <;> simp [Except.map, overlay]
  | cutTicks =>
    simp only [set]
    split <;> simp [Except.map, overlay]

/-- To read an entry into a header is to read it by itself and lay it over the header. -/
theorem read_eq_overlay (h : Header) (text : List Char) :
    h.read text = (({} : Header).read text).map (fun new => new.overlay h) := by
  unfold read
  split
  · rfl
  · split
    · rfl
    · exact set_eq_overlay h _ _

/-- Whether an entry is refused, and why, does not depend on the entries before it. -/
theorem read_error_iff (h h' : Header) :
    h.read text = .error fault ↔ h'.read text = .error fault := by
  rw [read_eq_overlay h, read_eq_overlay h']
  cases ({} : Header).read text <;> simp [Except.map]

theorem isOk_read (h h' : Header) : (h.read text).isOk = (h'.read text).isOk := by
  rw [read_eq_overlay h, read_eq_overlay h']
  cases ({} : Header).read text <;> rfl

/-- An entry is of its own key and of no other. -/
theorem has_set (hs : ({} : Header).set key value = .ok new) (other : Key) :
    new.has other = decide (other = key) := by
  cases key with
  | samplesPerTick =>
    simp only [set] at hs
    split at hs
    · cases hs
    · split at hs
      · cases hs
      · cases hs
        cases other <;> rfl
  | generators =>
    obtain ⟨gs, _, rfl⟩ := map_ok hs
    cases other <;> rfl
  | ticksPerWhole =>
    simp only [set] at hs
    split at hs
    · cases hs
    · cases hs
      cases other <;> rfl
  | cutTicks =>
    simp only [set] at hs
    split at hs
    · cases hs
    · cases hs
      cases other <;> rfl

/-- An entry that was read has its key and no other. -/
theorem has_read (hr : ({} : Header).read text = .ok new) :
    ∃ key, key? text = some key ∧ ∀ other, new.has other = decide (other = key) := by
  unfold read at hr
  split at hr
  · cases hr
  · rename_i name value he
    split at hr
    · cases hr
    · rename_i key hn
      refine ⟨key, ?_, has_set hr⟩
      rw [key?, he]
      exact hn

section Entries

variable {entries : List (List Char)}

/-- Entries can be read apart and laid over the header afterwards. -/
theorem foldlM_read_eq_overlay (h : Header) (entries : List (List Char)) :
    entries.foldlM read h = (entries.foldlM read {}).map (fun new => new.overlay h) := by
  induction entries generalizing h with
  | nil => exact congrArg Except.ok (empty_overlay h).symm
  | cons text entries ih =>
    rw [List.foldlM_cons, List.foldlM_cons, read_eq_overlay h]
    cases ({} : Header).read text with
    | error fault => rfl
    | ok new =>
      change entries.foldlM read (new.overlay h) = (entries.foldlM read new).map _
      rw [ih, ih new]
      cases entries.foldlM read {} with
      | error fault => rfl
      | ok top => exact congrArg Except.ok (overlay_assoc top new h).symm

/-- A header that was read from a first entry and others: the others lie over the first. -/
theorem foldlM_read_cons (hr : (text :: entries).foldlM read {} = .ok h) :
    ∃ new top, ({} : Header).read text = .ok new ∧ entries.foldlM read {} = .ok top ∧
      h = top.overlay new := by
  rw [List.foldlM_cons] at hr
  cases hn : ({} : Header).read text with
  | error fault => rw [hn] at hr; cases hr
  | ok new =>
    rw [hn] at hr
    have hr : entries.foldlM read new = .ok h := hr
    rw [foldlM_read_eq_overlay] at hr
    obtain ⟨top, ht, rfl⟩ := map_ok hr
    exact ⟨new, top, rfl, ht, rfl⟩

theorem has_of_foldlM_read (hr : entries.foldlM read {} = .ok h) (hm : text ∈ entries)
    (hk : key? text = some key) : h.has key = true := by
  induction entries generalizing h with
  | nil => cases hm
  | cons first entries ih =>
    obtain ⟨new, top, hn, ht, rfl⟩ := foldlM_read_cons hr
    rw [has_overlay]
    rcases List.mem_cons.mp hm with rfl | hm
    · obtain ⟨own, ho, hhas⟩ := has_read hn
      obtain rfl := Option.some.inj (ho.symm.trans hk)
      rw [hhas]
      simp
    · rw [ih ht hm]
      rfl

end Entries

end Header

end Polysynth.Score
