import Polysynth.Proofs.HeaderEntries

namespace Polysynth.Score

/-- Why a line is refused as a header entry. All other lines pass. -/
def checkEntry (line : Line) : Except Error Header :=
  match line.entry? with
  | none => .ok {}
  | some entry => (({} : Header).read entry).mapError (.header line.number)

theorem checkEntry_error_iff {line : Line} {e : Error} :
    checkEntry line = .error e ↔
      ∃ entry fault, line.text = '>' :: entry ∧ ({} : Header).read entry = .error fault ∧
        e = .header line.number fault := by
  simp only [← Line.entry?_eq_some_iff]
  unfold checkEntry
  cases line.entry? with
  | none => simp
  | some entry =>
    dsimp only
    cases hr : ({} : Header).read entry <;> simp [Except.mapError, hr, eq_comm]

theorem isOk_checkEntry {line : Line} : (checkEntry line).isOk = true ↔
    ∀ entry, line.text = '>' :: entry → (({} : Header).read entry).isOk = true := by
  simp only [← Line.entry?_eq_some_iff]
  unfold checkEntry
  cases line.entry? with
  | none => simp [Except.isOk, Except.toBool]
  | some entry =>
    dsimp only
    cases hr : ({} : Header).read entry <;> simp [Except.mapError, Except.isOk, Except.toBool, hr]

/-- Parting the header from the body is a pass that checks the header lines. -/
theorem checks_entries : Checks checkEntry sift where
  nil _ := rfl
  error h line ls e he := by
    obtain ⟨entry, fault, ht, hr, rfl⟩ := checkEntry_error_iff.mp he
    rw [sift_cons_entry h (Line.entry?_eq_some_iff.mpr ht), (Header.read_error_iff h {}).mpr hr]
  ok h line ls hk := by
    cases he : line.entry? with
    | none => exact ⟨h, _, sift_cons_other h he ls⟩
    | some entry =>
      rw [sift_cons_entry h he]
      cases hr : h.read entry with
      | error fault =>
        simp only [checkEntry, he, (Header.read_error_iff h {}).mp hr] at hk
        cases hk
      | ok next =>
        refine ⟨next, id, ?_⟩
        dsimp only
        cases sift next ls <;> rfl

/-- A line of a text without the blanks around it. Lines count from one. -/
def lineAt? (text : String) : Nat → Option (List Char)
  | 0 => none
  | i + 1 => (Text.pieces (fun c => c == '\n') text.toList)[i]?.map Text.trim

section Numbers

variable {text : String} {line : Line} {i : Nat}

theorem getElem?_lines : (lines text.toList)[i]? = some line ↔
    line.number = i + 1 ∧ lineAt? text (i + 1) = some line.text := by
  obtain ⟨number, content⟩ := line
  simp only [lines, List.getElem?_mapIdx, List.getElem?_map, lineAt?]
  cases (Text.pieces (fun c => c == '\n') text.toList)[i]? with
  | none => simp
  | some piece => simp [eq_comm]

/-- A line is known by its number. -/
theorem mem_lines : line ∈ lines text.toList ↔ lineAt? text line.number = some line.text := by
  rw [List.mem_iff_getElem?]
  constructor
  · intro ⟨i, hi⟩
    obtain ⟨hn, ht⟩ := getElem?_lines.mp hi
    rw [hn, ht]
  · intro ht
    cases hn : line.number with
    | zero => rw [hn] at ht; cases ht
    | succ i => exact ⟨i, getElem?_lines.mpr ⟨hn, hn ▸ ht⟩⟩

theorem mem_take_lines : line ∈ (lines text.toList).take i ↔
    line.number ≤ i ∧ lineAt? text line.number = some line.text := by
  constructor
  · intro hm
    obtain ⟨k, hk⟩ := List.mem_iff_getElem?.mp hm
    rw [List.getElem?_take] at hk
    split at hk
    · rename_i hlt
      obtain ⟨hn, ht⟩ := getElem?_lines.mp hk
      exact ⟨by omega, hn ▸ ht⟩
    · cases hk
  · intro ⟨hle, ht⟩
    obtain ⟨k, hk⟩ := List.mem_iff_getElem?.mp (mem_lines.mpr ht)
    have hn := (getElem?_lines.mp hk).1
    apply List.mem_iff_getElem?.mpr
    refine ⟨k, ?_⟩
    rw [List.getElem?_take, if_pos (by omega), hk]

end Numbers

def Error.line? : Error → Option Nat
  | header line _ => some line
  | blockShape line _ _ => some line
  | token line _ _ => some line
  | missing _ => none
  | noTracks => none
  | generatorCount _ _ => none

/-- The header lines of a text can be read and are complete, its blocks fit the tracks, and each
track has a generator. -/
structure Laid (text : String) (settings : Settings) (rows : List (List Line)) : Prop where
  header : ∃ header,
    ((lines text.toList).filterMap Line.entry?).foldlM Header.read {} = .ok header ∧
      header.settings = .ok settings
  dealt : deal (blocks ((lines text.toList).filter Line.inBody)) = .ok rows
  generators : settings.generators.length = rows.length

/-- The first token of the tracks that is refused, from track to track and from line to line. -/
def FirstRefused (timing : Timing) (rows : List (List Line)) (line : Line) (word : List Char)
    (fault : TokenFault) : Prop :=
  ∃ (k : Nat) (track : List Line) (i j : Nat), rows[k]? = some track ∧ track[i]? = some line ∧
    (Text.words line.text)[j]? = some word ∧ Token.encode timing word = .error fault ∧
    (∀ earlier ∈ (Text.words line.text).take j, (Token.encode timing earlier).isOk = true) ∧
    (∀ earlier ∈ track.take i, earlier.Valid timing) ∧
    ∀ lower ∈ rows.take k, ∀ earlier ∈ lower, earlier.Valid timing

section Encoding

variable {timing : Timing} {e : Error}

theorem isOk_encodeWords {line : Line} :
    (encodeWords timing line.number (Text.words line.text) []).isOk = true ↔ line.Valid timing := by
  rw [(checks_words timing line.number).isOk_iff ()]
  simp only [isOk_checkWord]
  rfl

theorem isOk_encodeLines {ls : List Line} :
    (encodeLines timing ls []).isOk = true ↔ ∀ line ∈ ls, line.Valid timing := by
  rw [(checks_lines timing).isOk_iff ()]
  simp only [isOk_encodeWords]

/-- A pass over the tracks names the first refused token in the order of the tracks, which need not
be the first in the text. -/
theorem encodeTracks_error_iff (parts : List (List Line × Generator)) :
    encodeTracks timing parts = .error e ↔
      ∃ line word fault, e = .token line.number (String.ofList word) fault ∧
        FirstRefused timing (parts.map Prod.fst) line word fault := by
  rw [(checks_tracks timing).error_iff ()]
  constructor
  · intro ⟨k, part, hk, hl, hlower⟩
    obtain ⟨i, line, hi, hw, hlines⟩ := ((checks_lines timing).error_iff () _ _).mp hl
    obtain ⟨j, word, hj, hc, hwords⟩ := ((checks_words timing _).error_iff () _ _).mp hw
    obtain ⟨fault, hf, rfl⟩ := (checkWord_error_iff timing).mp hc
    refine ⟨line, word, fault, rfl, k, part.1, i, j, ?_, hi, hj, hf, ?_, ?_, ?_⟩
    · rw [List.getElem?_map, hk]
      rfl
    · intro w hm
      rw [← isOk_checkWord timing line.number]
      exact hwords w hm
    · intro earlier hm
      exact isOk_encodeWords.mp (hlines earlier hm)
    · intro lower hm
      rw [← List.map_take] at hm
      obtain ⟨p, hp, rfl⟩ := List.mem_map.mp hm
      exact isOk_encodeLines.mp (hlower p hp)
  · intro ⟨line, word, fault, he, k, track, i, j, hk, hi, hj, hf, hwords, hlines, hlower⟩
    rw [List.getElem?_map] at hk
    obtain ⟨part, hp, rfl⟩ := Option.map_eq_some_iff.mp hk
    refine ⟨k, part, hp, ((checks_lines timing).error_iff () _ _).mpr ⟨i, line, hi,
      ((checks_words timing _).error_iff () _ _).mpr ⟨j, word, hj, ?_, ?_⟩, ?_⟩, ?_⟩
    · exact (checkWord_error_iff timing).mpr ⟨fault, hf, he⟩
    · intro w hm
      rw [isOk_checkWord]
      exact hwords w hm
    · intro earlier hm
      exact isOk_encodeWords.mpr (hlines earlier hm)
    · intro p hp
      apply isOk_encodeLines.mpr
      apply hlower
      rw [← List.map_take]
      exact List.mem_map_of_mem hp

end Encoding

section Load

variable {text : String} {settings : Settings} {rows : List (List Line)} {e : Error}

/-- The first header line that is refused. -/
theorem sift_error_iff : sift {} (lines text.toList) = .error e ↔
    ∃ number entry fault, e = .header number fault ∧ lineAt? text number = some ('>' :: entry) ∧
      ({} : Header).read entry = .error fault ∧
      ∀ earlier < number, ∀ other, lineAt? text earlier = some ('>' :: other) →
        (({} : Header).read other).isOk = true := by
  rw [checks_entries.error_iff]
  constructor
  · intro ⟨i, line, hi, hc, hall⟩
    obtain ⟨hn, ht⟩ := getElem?_lines.mp hi
    obtain ⟨entry, fault, he, hr, rfl⟩ := checkEntry_error_iff.mp hc
    refine ⟨line.number, entry, fault, rfl, by rw [hn, ht, he], hr, ?_⟩
    intro earlier hlt other ho
    have hm : ⟨earlier, '>' :: other⟩ ∈ (lines text.toList).take i :=
      mem_take_lines.mpr ⟨by dsimp only; omega, ho⟩
    exact isOk_checkEntry.mp (hall _ hm) other rfl
  · intro ⟨number, entry, fault, he, ht, hr, hall⟩
    obtain ⟨i, hi⟩ := List.mem_iff_getElem?.mp
      (mem_lines.mpr ht : (⟨number, '>' :: entry⟩ : Line) ∈ lines text.toList)
    have hn : number = i + 1 := (getElem?_lines.mp hi).1
    refine ⟨i, _, hi, checkEntry_error_iff.mpr ⟨entry, fault, rfl, hr, he⟩, ?_⟩
    intro line hm
    obtain ⟨hle, hl⟩ := mem_take_lines.mp hm
    apply isOk_checkEntry.mpr
    intro other ho
    exact hall line.number (by omega) other (hl.trans (congrArg some ho))

theorem Laid.load_eq (h : Laid text settings rows) :
    load text =
      (encodeTracks settings.timing (rows.zip settings.generators)).map fun ts =>
        { samplesPerTick := settings.samplesPerTick
          attenuation := attenuationFor rows.length
          tracks := ts } := by
  obtain ⟨header, hread, hset⟩ := h.header
  simp only [load, sift_of_read hread, hset, Layout.arrange_eq_deal, h.dealt, h.generators, ne_eq,
    not_true, if_false]

/-- Where an error of a score comes from. -/
theorem load_error_cases (h : load text = .error e) :
    sift {} (lines text.toList) = .error e ∨ (∃ key, e = .missing key) ∨
    deal (blocks ((lines text.toList).filter Line.inBody)) = .error e ∨
    (∃ gs ts, e = .generatorCount gs ts) ∨
    ∃ settings rows, Laid text settings rows ∧
      encodeTracks settings.timing (rows.zip settings.generators) = .error e := by
  unfold load at h
  split at h
  · rename_i hs
    cases h
    exact .inl hs
  · rename_i header body hs
    obtain ⟨hread, rfl⟩ := sift_eq_ok_iff.mp hs
    split at h
    · cases h
      exact .inr (.inl ⟨_, rfl⟩)
    · rename_i settings hset
      rw [Layout.arrange_eq_deal] at h
      split at h
      · rename_i hd
        cases h
        exact .inr (.inr (.inl hd))
      · rename_i rows hd
        split at h
        · cases h
          exact .inr (.inr (.inr (.inl ⟨_, _, rfl⟩)))
        · rename_i hn
          exact .inr (.inr (.inr (.inr ⟨settings, rows,
            ⟨⟨header, hread, hset⟩, hd, Decidable.not_not.mp hn⟩, map_error h⟩)))

/-- Dealing fails where there are no lines at all, and else for one line too many. -/
theorem deal_error {bs : List (List Line)} (h : deal bs = .error e) :
    e = .noTracks ∨ ∃ line ∈ bs.flatten, ∃ n, e = .blockShape line.number n (n + 1) := by
  cases bs with
  | nil =>
    cases h
    exact .inl rfl
  | cons first later =>
    rw [deal] at h
    split at h
    · rename_i line hx
      cases h
      have hm : line ∈ later.flatten :=
        (excess_sublist_flatten _ later).subset (List.mem_of_mem_head? hx)
      exact .inr ⟨line, List.mem_append_right first hm, first.length, rfl⟩
    · cases h

/-- Dealing loses no line and makes none up. -/
theorem mem_flatten_of_deal {bs : List (List Line)} (h : deal bs = .ok rows) {line : Line} :
    line ∈ rows.flatten ↔ line ∈ bs.flatten := by
  cases bs with
  | nil => cases h
  | cons first later =>
    rw [deal] at h
    split at h
    · cases h
    · rename_i hx
      cases h
      have hn := head_excess_eq_none_iff.mp hx
      have hp : ((List.range first.length).flatMap (column (first :: later))).Perm
          (first :: later).flatten := flatMap_column_perm (by simpa using hn)
      rw [← List.flatMap_def]
      exact hp.mem_iff

/-- Header lines are read first, so their errors hide all others. -/
theorem load_header_error_iff {number : Nat} {fault : HeaderFault} :
    load text = .error (.header number fault) ↔
      sift {} (lines text.toList) = .error (.header number fault) := by
  constructor
  · intro h
    rcases load_error_cases h with hs | ⟨_, he⟩ | hd | ⟨_, _, he⟩ | ⟨settings, rows, _, ht⟩
    · exact hs
    · cases he
    · rcases deal_error hd with he | ⟨_, _, _, he⟩ <;> cases he
    · cases he
    · obtain ⟨_, _, _, he, _⟩ := (encodeTracks_error_iff _).mp ht
      cases he
  · intro hs
    simp only [load, hs]

theorem Laid.map_fst_zip (h : Laid text settings rows) :
    (rows.zip settings.generators).map Prod.fst = rows :=
  List.map_fst_zip (Nat.le_of_eq h.generators.symm)

/-- Tokens are read last, so a refused one is reported only where all else is in order. -/
theorem load_token_error_iff {number : Nat} {token : String} {fault : TokenFault} :
    load text = .error (.token number token fault) ↔
      ∃ settings rows, Laid text settings rows ∧ ∃ line word,
        FirstRefused settings.timing rows line word fault ∧
        line.number = number ∧ String.ofList word = token := by
  constructor
  · intro h
    rcases load_error_cases h with hs | ⟨_, he⟩ | hd | ⟨_, _, he⟩ | ⟨settings, rows, hl, ht⟩
    · obtain ⟨_, _, _, he, _⟩ := sift_error_iff.mp hs
      cases he
    · cases he
    · rcases deal_error hd with he | ⟨_, _, _, he⟩ <;> cases he
    · cases he
    · obtain ⟨line, word, _, he, hf⟩ := (encodeTracks_error_iff _).mp ht
      cases he
      rw [hl.map_fst_zip] at hf
      exact ⟨settings, rows, hl, line, word, hf, rfl, rfl⟩
  · intro ⟨settings, rows, hl, line, word, hf, hn, hw⟩
    rw [hl.load_eq]
    apply map_eq_error_iff.mpr
    apply (encodeTracks_error_iff _).mpr
    rw [hl.map_fst_zip, ← hn, ← hw]
    exact ⟨line, word, fault, rfl, hf⟩

/-- The blocks hold all lines of the body but the empty ones. -/
theorem mem_flatten_blocks {line : Line} :
    line ∈ (blocks ((lines text.toList).filter Line.inBody)).flatten ↔
      lineAt? text line.number = some line.text ∧ line.inBody = true ∧ line.text ≠ [] := by
  rw [flatten_blocks, List.mem_filter, List.mem_filter, mem_lines]
  simp [and_assoc]

/-- The tracks have every line of the body that is not blank. -/
theorem Laid.mem_flatten (h : Laid text settings rows) {line : Line} :
    line ∈ rows.flatten ↔
      lineAt? text line.number = some line.text ∧ line.inBody = true ∧ line.text ≠ [] := by
  rw [mem_flatten_of_deal h.dealt, mem_flatten_blocks]

theorem FirstRefused.mem_flatten {timing : Timing} {line : Line} {word : List Char}
    {fault : TokenFault} (h : FirstRefused timing rows line word fault) : line ∈ rows.flatten := by
  obtain ⟨k, track, i, _, hk, hi, _⟩ := h
  exact List.mem_flatten.mpr ⟨track, List.mem_of_getElem? hk, List.mem_of_getElem? hi⟩

/-- An error that has a line number has one of a line that is not blank. -/
theorem lineAt?_of_load_error (h : load text = .error e) {number : Nat}
    (hn : e.line? = some number) : ∃ content, content ≠ [] ∧ lineAt? text number = some content := by
  rcases load_error_cases h with hs | ⟨_, rfl⟩ | hd | ⟨_, _, rfl⟩ | ⟨settings, rows, hl, ht⟩
  · obtain ⟨_, entry, _, rfl, hline, _⟩ := sift_error_iff.mp hs
    cases hn
    exact ⟨'>' :: entry, List.cons_ne_nil _ _, hline⟩
  · cases hn
  · rcases deal_error hd with rfl | ⟨line, hm, _, rfl⟩
    · cases hn
    · cases hn
      obtain ⟨hline, _, hne⟩ := mem_flatten_blocks.mp hm
      exact ⟨line.text, hne, hline⟩
  · cases hn
  · obtain ⟨line, word, _, rfl, hf⟩ := (encodeTracks_error_iff _).mp ht
    cases hn
    rw [hl.map_fst_zip] at hf
    obtain ⟨hline, _, hne⟩ := hl.mem_flatten.mp hf.mem_flatten
    exact ⟨line.text, hne, hline⟩

/-- A header line that is refused, anywhere, refuses the score. -/
theorem load_of_refused_entry {number : Nat} {entry : List Char} {h : Header}
    (hline : lineAt? text number = some ('>' :: entry)) (hr : (h.read entry).isOk = false) :
    ∃ number fault, load text = .error (.header number fault) := by
  rcases isOk_or_error (sift {} (lines text.toList)) with hs | ⟨e, hs⟩
  · have hm : (⟨number, '>' :: entry⟩ : Line) ∈ lines text.toList := mem_lines.mpr hline
    have hok := isOk_checkEntry.mp ((checks_entries.isOk_iff {} _).mp hs _ hm) entry rfl
    rw [Header.isOk_read {} h, hr] at hok
    cases hok
  · obtain ⟨first, _, fault, rfl, _⟩ := sift_error_iff.mp hs
    exact ⟨first, fault, load_header_error_iff.mpr hs⟩

/-- A token that is refused, anywhere in tracks that are laid out, refuses the score. -/
theorem Laid.load_of_refused_token (h : Laid text settings rows) {line : Line}
    (hline : line ∈ rows.flatten) {word : List Char} (hw : word ∈ Text.words line.text)
    (hr : (Token.encode settings.timing word).isOk = false) :
    ∃ number token fault, load text = .error (.token number token fault) := by
  rcases isOk_or_error (encodeTracks settings.timing (rows.zip settings.generators)) with
    hs | ⟨e, hs⟩
  · obtain ⟨track, ht, hl⟩ := List.mem_flatten.mp hline
    rw [← h.map_fst_zip] at ht
    obtain ⟨part, hp, rfl⟩ := List.mem_map.mp ht
    have hok := ((checks_tracks settings.timing).isOk_iff () _).mp hs part hp
    have hv : (Token.encode settings.timing word).isOk = true :=
      isOk_encodeLines.mp hok line hl word hw
    rw [hr] at hv
    cases hv
  · obtain ⟨line, word, fault, rfl, _⟩ := (encodeTracks_error_iff _).mp hs
    exact ⟨_, _, fault, h.load_eq.trans (map_eq_error_iff.mpr hs)⟩

end Load

/-- The errors of a score name their fault. A line number is that of a line which is not blank. A
header error is that of the first header line that is refused, whatever was read before it. A token
error is that of the first refused token of the tracks, under the whole header, once the tracks are
laid out. And a header line that is refused, or a token that is once the tracks are laid out, is
never passed by. -/
theorem load_errors_name_their_fault (text : String) :
    (∀ e number, load text = .error e → e.line? = some number →
      ∃ content, content ≠ [] ∧ lineAt? text number = some content) ∧
    (∀ number fault, load text = .error (.header number fault) ↔
      ∃ entry, lineAt? text number = some ('>' :: entry) ∧
        (∀ h : Header, h.read entry = .error fault) ∧
        ∀ earlier < number, ∀ other, lineAt? text earlier = some ('>' :: other) →
          ∀ h : Header, (h.read other).isOk = true) ∧
    (∀ number token fault, load text = .error (.token number token fault) ↔
      ∃ settings rows, Laid text settings rows ∧ ∃ line word,
        FirstRefused settings.timing rows line word fault ∧
        lineAt? text number = some line.text ∧ line.number = number ∧
        String.ofList word = token) ∧
    ((∃ number entry, lineAt? text number = some ('>' :: entry) ∧
        ∃ h : Header, (h.read entry).isOk = false) →
      ∃ number fault, load text = .error (.header number fault)) ∧
    ∀ settings rows, Laid text settings rows →
      (∃ line ∈ lines text.toList, line.inBody = true ∧ ∃ word ∈ Text.words line.text,
        (Token.encode settings.timing word).isOk = false) →
      ∃ number token fault, load text = .error (.token number token fault) := by
  refine ⟨?_, ?_, ?_, ?_, ?_⟩
  · intro e number he hn
    exact lineAt?_of_load_error he hn
  · intro number fault
    rw [load_header_error_iff, sift_error_iff]
    constructor
    · intro ⟨_, entry, _, he, hline, hr, hall⟩
      cases he
      refine ⟨entry, hline, fun h => (Header.read_error_iff h {}).mpr hr, ?_⟩
      intro earlier hlt other ho h
      rw [Header.isOk_read h {}]
      exact hall earlier hlt other ho
    · intro ⟨entry, hline, hr, hall⟩
      exact ⟨number, entry, fault, rfl, hline, hr {},
        fun earlier hlt other ho => hall earlier hlt other ho {}⟩
  · intro number token fault
    rw [load_token_error_iff]
    constructor
    · intro ⟨settings, rows, hl, line, word, hf, hn, hw⟩
      have hline := (hl.mem_flatten.mp hf.mem_flatten).1
      exact ⟨settings, rows, hl, line, word, hf, hn ▸ hline, hn, hw⟩
    · intro ⟨settings, rows, hl, line, word, hf, _, hn, hw⟩
      exact ⟨settings, rows, hl, line, word, hf, hn, hw⟩
  · intro ⟨number, entry, hline, h, hr⟩
    exact load_of_refused_entry hline hr
  · intro settings rows hl ⟨line, hm, hb, word, hw, hr⟩
    have hne : line.text ≠ [] := by
      intro ht
      rw [ht] at hw
      cases hw
    exact hl.load_of_refused_token (hl.mem_flatten.mpr ⟨mem_lines.mp hm, hb, hne⟩) hw hr

/-- Of two tokens that are refused, the first in the text is in a later track than the second. And a
header line that is refused stands after blocks that do not fit. -/
theorem load_errors_name_their_fault_by_track :
    let tracks :=
      "> samps_per_tick: 2\n> generators: saw, tri\n> ticks_per_whole: 8\nc0-1\n?\n\n# later\n c0-1 x9-1 \n> cut_ticks: 1"
    let entries := "c0-1\n\nd0-1\nd0-1\n>generators: saw\n>cut_ticks: 128"
    load tracks = .error (.token 8 "x9-1" .malformed) ∧
      (∃ content, content ≠ [] ∧ lineAt? tracks 8 = some content) ∧
      (∃ number token fault, load tracks = .error (.token number token fault)) ∧
      ∃ number fault, load entries = .error (.header number fault) := by
  intro tracks entries
  let settings : Settings := ⟨2, [.saw, .triangle], ⟨8, 1⟩⟩
  let late : Line := ⟨8, "c0-1 x9-1".toList⟩
  let rows : List (List Line) := [[⟨4, "c0-1".toList⟩, late], [⟨5, "?".toList⟩]]
  have hl : Laid tracks settings rows := by
    refine ⟨⟨⟨some 2, some [.saw, .triangle], some 8, some 1⟩, ?_, rfl⟩, ?_, rfl⟩
    · decide +kernel
    · decide +kernel
  have hf : FirstRefused settings.timing rows late "x9-1".toList .malformed := by
    refine ⟨0, _, 1, 1, rfl, rfl, ?_⟩
    decide +kernel
  obtain ⟨hline, _, htoken, _, hany⟩ := load_errors_name_their_fault tracks
  obtain ⟨_, _, _, hentry, _⟩ := load_errors_name_their_fault entries
  have he : load tracks = .error (.token 8 "x9-1" .malformed) :=
    (htoken _ _ _).mpr ⟨settings, rows, hl, late, _, hf, by decide +kernel, rfl, by decide +kernel⟩
  refine ⟨he, hline _ 8 he rfl, hany settings rows hl ?_, hentry ?_⟩
  · exact ⟨late, by decide +kernel⟩
  · exact ⟨6, "cut_ticks: 128".toList, by decide +kernel, {}, by decide +kernel⟩

end Polysynth.Score
