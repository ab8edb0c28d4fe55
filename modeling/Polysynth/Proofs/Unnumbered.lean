import Polysynth.Proofs.Blocks

namespace Polysynth.Score

def Line.bare (content : List Char) : Line := ⟨0, content⟩

def Line.unnumbered (line : Line) : Line := .bare line.text

def Error.unnumbered : Error → Error
  | header _ fault => header 0 fault
  | missing key => missing key
  | noTracks => noTracks
  | blockShape _ expected found => blockShape 0 expected found
  | generatorCount generators tracks => generatorCount generators tracks
  | token _ text fault => token 0 text fault

def compose (entries : List (List Char)) (bs : List (List Line)) : Except Error Song :=
  match entries.foldlM Header.read {} with
  | .error fault => .error (.header 0 fault)
  | .ok header =>
    match header.settings with
    | .error key => .error (.missing key)
    | .ok settings =>
      match deal bs with
      | .error e => .error e
      | .ok rows =>
        if settings.generators.length ≠ rows.length then
          .error (.generatorCount settings.generators.length rows.length)
        else
          (encodeTracks settings.timing (rows.zip settings.generators)).map fun ts =>
            { samplesPerTick := settings.samplesPerTick
              attenuation := attenuationFor rows.length
              tracks := ts }

theorem mapError_map {ε δ α β : Type} (x : Except ε α) (f : α → β) (g : ε → δ) :
    (x.map f).mapError g = (x.mapError g).map f := by
  cases x <;> rfl

theorem mapError_eq_ok_iff {ε δ α : Type} {x : Except ε α} {f : ε → δ} {a : α} :
    x.mapError f = .ok a ↔ x = .ok a := by
  cases x <;> simp [Except.mapError]

/-- The entries tell that a line is refused, but not which. -/
theorem sift_of_refused {h : Header} {ls : List Line} {fault : HeaderFault}
    (hr : (ls.filterMap Line.entry?).foldlM Header.read h = .error fault) :
    ∃ number, sift h ls = .error (.header number fault) := by
  induction ls generalizing h with
  | nil => cases hr
  | cons line ls ih =>
    cases he : line.entry? with
    | some entry =>
      rw [List.filterMap_cons_some he, List.foldlM_cons] at hr
      rw [sift_cons_entry h he]
      cases hn : h.read entry with
      | error d =>
        rw [hn] at hr
        cases hr
        exact ⟨line.number, rfl⟩
      | ok next =>
        rw [hn] at hr
        exact ih hr
    | none =>
      rw [List.filterMap_cons_none he] at hr
      obtain ⟨number, hs⟩ := ih hr
      rw [sift_cons_other h he, hs]
      exact ⟨number, rfl⟩

section Blocks

variable (bs : List (List Line)) (n : Nat)

theorem column_unnumbered :
    column (bs.map (List.map Line.unnumbered)) n = (column bs n).map Line.unnumbered := by
  simp [column, List.filterMap_map, List.map_filterMap]

theorem excess_unnumbered :
    excess n (bs.map (List.map Line.unnumbered)) = (excess n bs).map Line.unnumbered := by
  simp [excess, List.flatMap_map, List.map_flatMap]

/-- Lines are dealt out by their places, not by their numbers. -/
theorem deal_unnumbered :
    deal (bs.map (List.map Line.unnumbered)) =
      ((deal bs).map (List.map (List.map Line.unnumbered))).mapError Error.unnumbered := by
  cases bs with
  | nil => rfl
  | cons first later =>
    rw [List.map_cons, deal, deal, List.length_map, excess_unnumbered, List.head?_map]
    cases (excess first.length later).head? with
    | some line => rfl
    | none =>
      simp [Except.map, Except.mapError, ← List.map_cons, column_unnumbered]

theorem blocks_unnumbered (body : List Line) :
    blocks (body.map Line.unnumbered) = (blocks body).map (List.map Line.unnumbered) := by
  have hmap {block : List Line} (hb : ∀ line ∈ block, line.text ≠ []) :
      blocks (block.map Line.unnumbered) = (blocks block).map (List.map Line.unnumbered) := by
    by_cases hne : block = []
    · rw [hne]
      rfl
    · have hu : ∀ line ∈ block.map Line.unnumbered, line.text ≠ [] := by
        intro line hm
        obtain ⟨own, ho, rfl⟩ := List.mem_map.mp hm
        exact hb own ho
      rw [blocks_block hb hne, blocks_block hu (by simpa using hne)]
      rfl
  induction body using body_induction with
  | last block hb => exact hmap hb
  | more block blank rest hb hk ih =>
    rw [blocks_append block hk, List.map_append, List.map_cons, List.map_append,
      blocks_append _ (by exact hk), ih, hmap hb]

end Blocks

section Encoding

variable (timing : Timing)

theorem encodeWords_unnumbered (number : Nat) (ws : List (List Char)) :
    (encodeWords timing number ws []).mapError Error.unnumbered = encodeWords timing 0 ws [] := by
  induction ws with
  | nil => rfl
  | cons w ws ih =>
    rw [encodeWords_cons, encodeWords_cons, ← ih]
    cases Token.encode timing w with
    | error fault => rfl
    | ok bytes => exact mapError_map _ _ _

theorem encodeLines_unnumbered (ls : List Line) :
    encodeLines timing (ls.map Line.unnumbered) [] =
      (encodeLines timing ls []).mapError Error.unnumbered := by
  induction ls with
  | nil => rfl
  | cons line ls ih =>
    have hw : encodeWords timing line.unnumbered.number (Text.words line.unnumbered.text) [] =
        (encodeWords timing line.number (Text.words line.text) []).mapError Error.unnumbered :=
      (encodeWords_unnumbered timing line.number _).symm
    rw [List.map_cons, encodeLines_cons, encodeLines_cons, ih, hw]
    cases encodeWords timing line.number (Text.words line.text) [] with
    | error e => rfl
    | ok bytes => exact (mapError_map _ _ _).symm

/-- The number of a line is only copied into its error. -/
theorem encodeTracks_unnumbered (parts : List (List Line × Generator)) :
    encodeTracks timing (parts.map (Prod.map (List.map Line.unnumbered) id)) =
      (encodeTracks timing parts).mapError Error.unnumbered := by
  induction parts with
  | nil => rfl
  | cons part parts ih =>
    obtain ⟨ls, g⟩ := part
    rw [List.map_cons, Prod.map_apply, encodeTracks, encodeTracks, ih, encodeLines_unnumbered]
    cases encodeLines timing ls [] with
    | error e => rfl
    | ok data => exact (mapError_map _ _ _).symm

end Encoding

/-- Apart from the number of a line at fault, a score says what its entries and blocks say. -/
theorem mapError_load (text : String) :
    let content := (lines text.toList).map Line.unnumbered
    (load text).mapError Error.unnumbered =
      compose (content.filterMap Line.entry?) (blocks (content.filter Line.inBody)) := by
  intro content
  have he : content.filterMap Line.entry? = (lines text.toList).filterMap Line.entry? :=
    List.filterMap_map
  have hb : content.filter Line.inBody =
      ((lines text.toList).filter Line.inBody).map Line.unnumbered :=
    List.filter_map
  rw [he, hb, blocks_unnumbered]
  unfold load compose
  cases hf : ((lines text.toList).filterMap Line.entry?).foldlM Header.read {} with
  | error fault =>
    obtain ⟨number, hs⟩ := sift_of_refused hf
    rw [hs]
    rfl
  | ok header =>
    rw [sift_of_read hf]
    dsimp only
    cases header.settings with
    | error key => rfl
    | ok settings =>
      dsimp only
      rw [Layout.arrange_eq_deal, deal_unnumbered]
      cases deal (blocks ((lines text.toList).filter Line.inBody)) with
      | error e => rfl
      | ok rows =>
        have hd : (Except.map (List.map (List.map Line.unnumbered)) (.ok rows)).mapError
            Error.unnumbered = .ok (rows.map (List.map Line.unnumbered)) := rfl
        rw [hd]
        dsimp only
        rw [List.length_map]
        by_cases hn : settings.generators.length = rows.length
        · rw [if_neg (not_not.mpr hn), if_neg (not_not.mpr hn), List.zip_map_left,
            encodeTracks_unnumbered]
          exact mapError_map _ _ _
        · rw [if_pos hn, if_pos hn]
          rfl

end Polysynth.Score
