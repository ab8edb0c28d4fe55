import Polysynth.Proofs.Blocks
import Polysynth.Proofs.PlayableSong

namespace Polysynth.Score

/-- The names of an event: those of its pitch, and `/` for a rest. -/
def Names : Event → List Char → Prop
  | .note pitch _, name => pitch? name = some pitch
  | .rest _, name => name = ['/']

instance (e : Event) (name : List Char) : Decidable (Names e name) :=
  match e with
  | .note pitch _ => inferInstanceAs (Decidable (pitch? name = some pitch))
  | .rest _ => inferInstanceAs (Decidable (name = ['/']))

structure Mark where
  event : Event
  name : List Char
  proper : event.Proper
  named : Names event name

structure Staff where
  generator : Generator
  marks : List Mark
  filled : marks ≠ []

structure Sheet where
  samplesPerTick : UInt16
  ticksPerWhole : UInt32
  cutTicks : Nat
  staves : List Staff
  rated : samplesPerTick ≠ 0
  cuttable : cutTicks ≤ maxRestTicks
  filled : staves ≠ []

def Mark.word (m : Mark) : List Char := m.name ++ '-' :: Nat.toDigits 10 m.event.ticks.toNat

namespace Staff

def words (s : Staff) : List (List Char) := s.marks.map Mark.word

def line (s : Staff) : List Char := [' '].intercalate s.words

def track (s : Staff) : Track where
  data := s.marks.flatMap (fun m => m.event.encode)
  generator := s.generator
  looping := true

end Staff

def Key.entry (k : Key) (value : List Char) : List Char :=
  ' ' :: k.name.toList ++ ':' :: ' ' :: value

namespace Sheet

def generators (s : Sheet) : List Generator := s.staves.map Staff.generator

def value (s : Sheet) : Key → List Char
  | .samplesPerTick => Nat.toDigits 10 s.samplesPerTick.toNat
  | .generators => [',', ' '].intercalate (s.generators.map (fun g => g.name.toList))
  | .ticksPerWhole => Nat.toDigits 10 s.ticksPerWhole.toNat
  | .cutTicks => Nat.toDigits 10 s.cutTicks

def lines (s : Sheet) : List (List Char) :=
  Key.all.map (fun k => '>' :: k.entry (s.value k)) ++ [] :: s.staves.map Staff.line

def text (s : Sheet) : String := String.ofList (s.lines.flatMap (fun l => l ++ ['\n']))

def song (s : Sheet) : Song where
  title := ""
  samplesPerTick := s.samplesPerTick
  attenuation := attenuationFor s.staves.length
  tracks := s.staves.map Staff.track

end Sheet

/-- The letters of pitches are told apart from blanks and from the marks of rests, comments and
header lines. -/
theorem semitone_not_blank {c : Char} {s : UInt8} (h : semitone? c = some s) :
    Text.isBlank c = false ∧ c ≠ '/' ∧ c ≠ '#' ∧ c ≠ '>' := by
  unfold semitone? at h
  split at h
  all_goals first | decide | cases h

theorem octave_not_blank {c : Char} {o : UInt8} (h : octave? c = some o) :
    Text.isBlank c = false := by
  unfold octave? at h
  split at h
  · rename_i hc
    apply Text.not_blank_of_isDigit
    have h9 : c ≤ '9' := Char.le_trans hc.2 (by decide)
    exact Bool.and_eq_true_iff.mpr ⟨decide_eq_true hc.1, decide_eq_true h9⟩
  · cases h

/-- A pitch is named by a letter and an octave. -/
theorem pitch_cases {name : List Char} {pitch : UInt8} (h : pitch? name = some pitch) :
    ∃ letter octave s o, name = [letter, octave] ∧ semitone? letter = some s ∧
      octave? octave = some o := by
  unfold pitch? at h
  split at h
  · rename_i letter octave
    cases hs : semitone? letter with
    | none => simp [hs] at h
    | some s =>
      cases ho : octave? octave with
      | none => simp [hs, ho] at h
      | some o => exact ⟨letter, octave, s, o, rfl, hs, ho⟩
  · cases h

namespace Mark

variable (m : Mark)

def pitch : Option UInt8 :=
  match m.event with
  | .note p _ => some p
  | .rest _ => none

theorem sound_word :
    Token.sound? m.word = some (m.pitch, '-' :: Nat.toDigits 10 m.event.ticks.toNat) := by
  obtain ⟨event, name, hp, hn⟩ := m
  cases event with
  | note p t =>
    obtain ⟨letter, octave, s, o, rfl, hs, _⟩ := pitch_cases hn
    have hl : letter ≠ '/' := (semitone_not_blank hs).2.1
    have hn : pitch? [letter, octave] = some p := hn
    simp [word, pitch, Token.sound?, hn]
  | rest t =>
    have hn : name = ['/'] := hn
    simp [word, pitch, hn, Token.sound?]

theorem read_word : Token.read? m.word =
    some { pitch := m.pitch, sign := '-', length := Nat.toDigits 10 m.event.ticks.toNat
           cut := false } := by
  have hs : Text.dropSuffix? '+' (Nat.toDigits 10 m.event.ticks.toNat) = none := by
    apply Text.dropSuffix?_of_not_mem
    intro hm
    exact absurd (Text.isDigit_of_mem_toDigits hm) (by decide)
  simp [Token.read?, sound_word, hs, Nat.toDigits_ne_nil]

theorem event_pitch :
    Token.event m.pitch (m.event.ticks.toNat : Int) = .ok m.event := by
  obtain ⟨event, name, hp, _⟩ := m
  cases event with
  | note p t =>
    have hp : p.toNat < pitchCount ∧ 1 ≤ t.toNat := hp
    have ht : t.toNat < 256 := t.toNat_lt
    have hle : (t.toNat : Int) ≤ 255 := by omega
    simp [Token.event, pitch, Event.ticks, Nat.not_le.mpr hp.1, hle]
  | rest t =>
    have ht : t.toNat ≤ maxRestTicks := hp.2
    have hle : (t.toNat : Int) ≤ (maxRestTicks : Nat) := by omega
    simp [Token.event, pitch, Event.ticks, hle]

/-- A mark is read as its event, however the header times it. -/
theorem encode_word (timing : Timing) : Token.encode timing m.word = .ok m.event.encode := by
  have ht : m.event.ticks.toNat < Length.limit :=
    Nat.lt_of_lt_of_le m.event.ticks.toNat_lt (by decide)
  have hz : m.event.ticks.toNat ≠ 0 := Nat.ne_of_gt m.proper.lasts
  have hl : Length.read? '-' (Nat.toDigits 10 m.event.ticks.toNat) =
      some (.ticks m.event.ticks.toNat) := by
    simp [Length.read?, Text.naturalBelow?_toDigits ht]
  simp [Token.encode, read_word, Token.events, hl, Length.ticks?, Token.cutBy, event_pitch, hz,
    Except.map]

theorem name_unblank : ∀ c ∈ m.name, Text.isBlank c = false := by
  obtain ⟨event, name, _, hn⟩ := m
  cases event with
  | note p t =>
    obtain ⟨letter, octave, s, o, rfl, hs, ho⟩ := pitch_cases hn
    simp [(semitone_not_blank hs).1, octave_not_blank ho]
  | rest t =>
    obtain rfl : name = ['/'] := hn
    exact List.forall_mem_singleton.mpr (by decide)

theorem word_unblank : ∀ c ∈ m.word, Text.isBlank c = false := by
  intro c hc
  rcases List.mem_append.mp hc with hc | hc
  · exact m.name_unblank c hc
  · rcases List.mem_cons.mp hc with rfl | hc
    · decide
    · exact Text.not_blank_of_isDigit (Text.isDigit_of_mem_toDigits hc)

theorem word_ne_nil : m.word ≠ [] := by simp [word]

/-- A word begins like neither a comment nor a header entry. -/
theorem head_word : ∃ c, m.word.head? = some c ∧ c ≠ '#' ∧ c ≠ '>' := by
  obtain ⟨event, name, _, hn⟩ := m
  cases event with
  | note p t =>
    obtain ⟨letter, octave, s, o, rfl, hs, _⟩ := pitch_cases hn
    exact ⟨letter, rfl, (semitone_not_blank hs).2.2⟩
  | rest t =>
    have hn : name = ['/'] := hn
    exact ⟨'/', by simp [word, hn], by decide⟩

end Mark

namespace Staff

variable (s : Staff)

theorem words_ne_nil : s.words ≠ [] := by simpa [words] using s.filled

theorem words_unblank : ∀ w ∈ s.words, w ≠ [] ∧ ∀ c ∈ w, Text.isBlank c = false := by
  intro w hw
  obtain ⟨m, _, rfl⟩ := List.mem_map.mp hw
  exact ⟨m.word_ne_nil, m.word_unblank⟩

/-- The line of a staff splits into the words it was joined from. -/
theorem words_line : Text.words s.line = s.words :=
  Text.words_intercalate s.words_ne_nil s.words_unblank

theorem solid_line : Text.Solid s.line := by
  apply Text.Solid.intercalate s.words_ne_nil
  intro w hw
  obtain ⟨hne, hu⟩ := s.words_unblank w hw
  exact .of_unblank hne hu

theorem newline_not_mem_line : '\n' ∉ s.line := by
  intro hm
  rcases Text.mem_intercalate_cases hm with hm | ⟨w, hw, hm⟩
  · exact absurd hm (by decide)
  · exact absurd ((s.words_unblank w hw).2 _ hm) (by decide)

theorem head_line : ∃ c, s.line.head? = some c ∧ c ≠ '#' ∧ c ≠ '>' := by
  obtain ⟨m, ms, hm⟩ := List.exists_cons_of_ne_nil s.filled
  obtain ⟨c, hc, hn⟩ := m.head_word
  refine ⟨c, ?_, hn⟩
  rw [line, words, hm]
  cases ms with
  | nil => simpa using hc
  | cons k ms => simp [List.intercalate_cons_cons, List.head?_append, hc]

theorem encode_words (timing : Timing) (number : Nat) (ms : List Mark) :
    encodeWords timing number (ms.map Mark.word) [] =
      .ok (ms.flatMap (fun m => m.event.encode)) := by
  induction ms with
  | nil => rfl
  | cons m ms ih =>
    rw [List.map_cons, encodeWords_cons, m.encode_word timing]
    simp [ih, Except.map]

/-- A staff is read back as the stream of its track. -/
theorem encode_line (timing : Timing) (number : Nat) :
    encodeLines timing [⟨number, s.line⟩] [] = .ok s.track.data := by
  simp [encodeLines, words_line, words, encode_words, track]

end Staff

/-- Each track on a line of its own. -/
theorem encode_staves (timing : Timing) (ss : List Staff) {ls : List Line}
    (h : ls.map Line.text = ss.map Staff.line) :
    encodeTracks timing ((ls.map (fun l => [l])).zip (ss.map Staff.generator)) =
      .ok (ss.map Staff.track) := by
  induction ss generalizing ls with
  | nil =>
    have hl : ls = [] := by simpa using h
    rw [hl]
    rfl
  | cons s ss ih =>
    cases ls with
    | nil => simp at h
    | cons l ls =>
      obtain ⟨number, text⟩ := l
      obtain ⟨rfl, hls⟩ := List.cons.inj h
      simp only [List.map_cons, List.zip_cons_cons, encodeTracks, s.encode_line, ih hls]
      rfl

theorem Key.ofName?_name (k : Key) : Key.ofName? k.name = some k := by
  cases k <;> decide

theorem Key.name_plain (k : Key) :
    ':' ∉ ' ' :: k.name.toList ∧ Text.trim (' ' :: k.name.toList) = k.name.toList ∧
      k.name.toList ≠ [] ∧ '\n' ∉ k.name.toList := by
  cases k <;> decide

/-- An entry as a sheet writes it is read as its key and its value. -/
theorem read_entry (h : Header) (k : Key) {value : List Char} (hv : Text.Solid value) :
    h.read (k.entry value) = h.set k value := by
  obtain ⟨hc, ht, hne, _⟩ := k.name_plain
  have hs : Text.splitFirst? ':' (k.entry value) = some (' ' :: k.name.toList, ' ' :: value) :=
    Text.splitFirst?_append (List.forall_mem_ne'.mpr hc) _
  have hb : Text.trim (' ' :: value) = value := by
    rw [Text.trim_cons_blank (by decide), hv.trim_eq]
  have he : Header.entry? (k.entry value) = some (k.name.toList, value) := by
    simp [Header.entry?, hs, ht, hb, hne, hv.ne_nil]
  simp [Header.read, he, Key.ofName?_name]

theorem readGenerators_names (gs : List Generator) :
    Header.readGenerators (gs.map (fun g => g.name.toList)) = .ok gs := by
  induction gs with
  | nil => rfl
  | cons g gs ih => simp [Header.readGenerators, Generator.ofName?_name, ih, Except.map]

/-- Names of generators can be put into a list with commas and split again. -/
theorem generator_name_plain (g : Generator) :
    Text.Solid g.name.toList ∧ (∀ c ∈ g.name.toList, (c == ',') = false) ∧
      '\n' ∉ g.name.toList := by
  have hb : g.name.toList.any Text.isBlank = false := by cases g <;> decide
  have hc : g.name.toList.any (· == ',') = false := by cases g <;> decide
  refine ⟨.of_unblank ?_ (by simpa using hb), by simpa using hc, ?_⟩
  · cases g <;> decide
  · cases g <;> decide

namespace Sheet

variable (s : Sheet)

theorem generators_ne_nil : s.generators.map (fun g => g.name.toList) ≠ [] := by
  simpa [generators] using s.filled

theorem solid_value (k : Key) : Text.Solid (s.value k) := by
  cases k with
  | generators =>
    apply Text.Solid.intercalate s.generators_ne_nil
    intro w hw
    obtain ⟨g, _, rfl⟩ := List.mem_map.mp hw
    exact (generator_name_plain g).1
  | _ => exact Text.solid_toDigits _

theorem newline_not_mem_value (k : Key) : '\n' ∉ s.value k := by
  have hd (n : Nat) : '\n' ∉ Nat.toDigits 10 n :=
    fun hm => absurd (Text.isDigit_of_mem_toDigits hm) (by decide)
  cases k with
  | generators =>
    intro hm
    rcases Text.mem_intercalate_cases hm with hm | ⟨w, hw, hm⟩
    · exact absurd hm (by decide)
    · obtain ⟨g, _, rfl⟩ := List.mem_map.mp hw
      exact (generator_name_plain g).2.2 hm
  | _ => exact hd _

/-- A header with the entry of one key taken from the sheet. -/
def put (h : Header) : Key → Header
  | .samplesPerTick => { h with samplesPerTick := some s.samplesPerTick }
  | .generators => { h with generators := some s.generators }
  | .ticksPerWhole => { h with ticksPerWhole := some s.ticksPerWhole.toNat }
  | .cutTicks => { h with cutTicks := some s.cutTicks }

/-- The value written for a key is read back as what the sheet says. -/
theorem set_value (h : Header) (k : Key) : h.set k (s.value k) = .ok (s.put h k) := by
  cases k with
  | samplesPerTick =>
    have hz : s.samplesPerTick.toNat ≠ 0 := fun h0 => s.rated (UInt16.toNat_inj.mp h0)
    simp [Header.set, value, put, Text.plainBelow?_toDigits s.samplesPerTick.toNat_lt, hz]
  | generators =>
    have hp := Text.pieces_commas s.generators_ne_nil (by
      intro w hw
      obtain ⟨g, _, rfl⟩ := List.mem_map.mp hw
      exact ⟨(generator_name_plain g).1, (generator_name_plain g).2.1⟩)
    simp only [Header.set, value, put, hp, readGenerators_names]
    rfl
  | ticksPerWhole =>
    have hw : s.ticksPerWhole.toNat < Length.limit := s.ticksPerWhole.toNat_lt
    simp [Header.set, value, put, Text.plainBelow?_toDigits hw]
  | cutTicks =>
    have hc : s.cutTicks < maxRestTicks + 1 := Nat.lt_succ_of_le s.cuttable
    simp [Header.set, value, put, Text.plainBelow?_toDigits hc]

theorem sift_entry (h : Header) (k : Key) (number : Nat) (rest : List Line) :
    sift h (⟨number, '>' :: k.entry (s.value k)⟩ :: rest) = sift (s.put h k) rest := by
  simp [sift, read_entry h k (s.solid_value k), s.set_value]

theorem trim_line {l : List Char} (hl : l ∈ s.lines) : Text.trim l = l := by
  rcases List.mem_append.mp hl with hl | hl
  · obtain ⟨k, _, rfl⟩ := List.mem_map.mp hl
    have hg : Text.Solid ['>'] :=
      .of_unblank (by simp) (List.forall_mem_singleton.mpr (by decide))
    have he := (hg.append (' ' :: k.name.toList ++ [':', ' ']) (s.solid_value k)).trim_eq
    simpa [Key.entry] using he
  · rcases List.mem_cons.mp hl with rfl | hl
    · rfl
    · obtain ⟨t, _, rfl⟩ := List.mem_map.mp hl
      exact t.solid_line.trim_eq

theorem newline_not_mem_lines {l : List Char} (hl : l ∈ s.lines) : '\n' ∉ l := by
  rcases List.mem_append.mp hl with hl | hl
  · obtain ⟨k, _, rfl⟩ := List.mem_map.mp hl
    simp [Key.entry, k.name_plain.2.2.2, s.newline_not_mem_value k]
  · rcases List.mem_cons.mp hl with rfl | hl
    · exact List.not_mem_nil
    · obtain ⟨t, _, rfl⟩ := List.mem_map.mp hl
      exact t.newline_not_mem_line

/-- The lines of the text are those of the sheet, and an empty one after the last newline. -/
theorem lines_text : Score.lines s.text.toList =
    (s.lines ++ [[]]).mapIdx (fun i l => ⟨i + 1, l⟩) := by
  have hp : Text.pieces (fun c => c == '\n') s.text.toList = s.lines ++ [[]] := by
    rw [text, String.toList_ofList]
    apply Text.pieces_ended (by decide)
    intro l hl c hc
    apply beq_false_of_ne
    rintro rfl
    exact s.newline_not_mem_lines hl hc
  have ht : (s.lines ++ [[]]).map Text.trim = s.lines ++ [[]] := by
    rw [List.map_append, List.map_congr_left (fun l hl => s.trim_line hl), List.map_id']
    rfl
  rw [Score.lines, hp, ht]

end Sheet

/-- Lines that are neither comments nor header entries are the body. -/
theorem sift_body (h : Header) {ls : List Line}
    (hl : ∀ line ∈ ls, line.text.head? ≠ some '#' ∧ line.text.head? ≠ some '>') :
    sift h ls = .ok (h, ls) := by
  have hb : ∀ line ∈ ls, line.inBody = true := by
    intro line hm
    simpa [Line.inBody] using hl line hm
  have he : ls.filterMap Line.entry? = [] :=
    List.filterMap_eq_nil_iff.mpr (fun line hm => Line.entry?_of_inBody (hb line hm))
  have hr : (ls.filterMap Line.entry?).foldlM Header.read h = .ok h := by
    rw [he]
    rfl
  rw [sift_of_read hr, List.filter_eq_self.mpr hb]

namespace Layout

/-- Lines without a blank one between them go to a track each. -/
theorem arrange_one_block {ls : List Line} (hne : ls ≠ []) (hl : ∀ line ∈ ls, line.text ≠ [])
    (before after : Nat) :
    arrange (⟨before, []⟩ :: (ls ++ [⟨after, []⟩])) = .ok (ls.map (fun line => [line])) := by
  have hb : blocks (⟨before, []⟩ :: (ls ++ [⟨after, []⟩])) = [ls] := by
    rw [blocks_cons_blank rfl, blocks_append ls rfl, blocks_block hl hne]
    rfl
  rw [arrange_eq_deal, hb, deal_of_fits (by simp), ← spread_opening, spread_nil]

end Layout

namespace Sheet

variable (s : Sheet)

def body : List Line := (s.staves.map Staff.line).mapIdx (fun i l => ⟨i + 6, l⟩)

theorem text_body : s.body.map Line.text = s.staves.map Staff.line := by
  apply List.ext_getElem <;> simp [body]

theorem body_line {line : Line} (h : line ∈ s.body) : ∃ t : Staff, line.text = t.line := by
  have hm : line.text ∈ s.staves.map Staff.line := by
    rw [← text_body]
    exact List.mem_map_of_mem h
  obtain ⟨t, _, ht⟩ := List.mem_map.mp hm
  exact ⟨t, ht.symm⟩

/-- The text of a sheet parts into the header of the sheet and the lines of its staves. -/
theorem sift_text : ∃ after, sift {} (Score.lines s.text.toList) =
    .ok (Key.all.foldl s.put {}, ⟨5, []⟩ :: (s.body ++ [⟨after, []⟩])) := by
  refine ⟨s.staves.length + 6, ?_⟩
  have hl : Score.lines s.text.toList =
      ⟨1, '>' :: Key.samplesPerTick.entry (s.value .samplesPerTick)⟩ ::
      ⟨2, '>' :: Key.generators.entry (s.value .generators)⟩ ::
      ⟨3, '>' :: Key.ticksPerWhole.entry (s.value .ticksPerWhole)⟩ ::
      ⟨4, '>' :: Key.cutTicks.entry (s.value .cutTicks)⟩ ::
      ⟨5, []⟩ :: (s.body ++ [⟨s.staves.length + 6, []⟩]) := by
    rw [lines_text, lines]
    simp [Key.all, body, List.mapIdx_append]
  rw [hl, sift_entry, sift_entry, sift_entry, sift_entry, sift_body]
  · rfl
  · intro line hm
    rcases List.mem_cons.mp hm with rfl | hm
    · simp
    · rcases List.mem_append.mp hm with hm | hm
      · obtain ⟨t, ht⟩ := s.body_line hm
        obtain ⟨c, hc, h1, h2⟩ := t.head_line
        simp [ht, hc, h1, h2]
      · rw [List.mem_singleton.mp hm]
        simp

theorem arrange_body (after : Nat) :
    Layout.arrange (⟨5, []⟩ :: (s.body ++ [⟨after, []⟩])) =
      .ok (s.body.map (fun line => [line])) := by
  apply Layout.arrange_one_block
  · simpa [body] using s.filled
  · intro line hm
    obtain ⟨t, ht⟩ := s.body_line hm
    rw [ht]
    exact t.solid_line.ne_nil

end Sheet

/-- The natural name of a pitch, or that of the sharp below it. -/
def pitchName (pitch : UInt8) : List Char :=
  ["cCdDefFgGaAb".toList.getD (pitch.toNat % 12) 'c', Char.ofNat (48 + pitch.toNat / 12)]

/-- Every pitch of the table has a name. -/
theorem pitch_pitchName {pitch : UInt8} (h : pitch.toNat < pitchCount) :
    pitch? (pitchName pitch) = some pitch := by
  have hall : ∀ n < pitchCount, pitch? (pitchName (UInt8.ofNat n)) = some (UInt8.ofNat n) := by
    decide
  simpa using hall pitch.toNat h

theorem exists_mark {e : Event} (h : e.Proper) : ∃ m : Mark, m.event = e := by
  cases e with
  | note pitch ticks => exact ⟨⟨_, pitchName pitch, h, pitch_pitchName h.1⟩, rfl⟩
  | rest ticks => exact ⟨⟨_, ['/'], h, rfl⟩, rfl⟩

theorem exists_marks {es : List Event} (h : ∀ e ∈ es, e.Proper) :
    ∃ ms : List Mark, ms.map Mark.event = es := by
  induction es with
  | nil => exact ⟨[], rfl⟩
  | cons e es ih =>
    obtain ⟨m, rfl⟩ := exists_mark (h e (by simp))
    obtain ⟨ms, rfl⟩ := ih (fun d hd => h d (by simp [hd]))
    exact ⟨m :: ms, rfl⟩

/-- Every track that loops and is written from proper events, at least one, is that of a staff. -/
theorem exists_staff {t : Track} (hs : Spelled t.data) (hl : t.looping = true)
    (hne : t.data ≠ []) : ∃ s : Staff, s.track = t := by
  obtain ⟨data, g, looping⟩ := t
  obtain ⟨es, he, rfl⟩ := hs
  obtain ⟨ms, rfl⟩ := exists_marks he
  have hm : ms ≠ [] := by
    rintro rfl
    exact hne rfl
  refine ⟨⟨g, ms, hm⟩, ?_⟩
  obtain rfl : looping = true := hl
  simp [Staff.track, List.flatMap_map]

theorem exists_staves {ts : List Track} (hs : ∀ t ∈ ts, Spelled t.data)
    (hl : ∀ t ∈ ts, t.looping = true) (hne : ∀ t ∈ ts, t.data ≠ []) :
    ∃ ss : List Staff, ss.map Staff.track = ts := by
  induction ts with
  | nil => exact ⟨[], rfl⟩
  | cons t ts ih =>
    obtain ⟨s, rfl⟩ := exists_staff (hs t (by simp)) (hl t (by simp)) (hne t (by simp))
    obtain ⟨ss, rfl⟩ := ih (fun u hu => hs u (by simp [hu])) (fun u hu => hl u (by simp [hu]))
      (fun u hu => hne u (by simp [hu]))
    exact ⟨s :: ss, rfl⟩

/-- The text of every sheet loads as the song of the sheet. A song that a score can have, with any
whole note and any cut, is the song of a sheet. -/
theorem load_engraved :
    (∀ s : Sheet, load s.text = .ok s.song) ∧
    ∀ song : Song, Loaded song → song.title = "" → song.tracks ≠ [] →
      (∀ t ∈ song.tracks, t.data ≠ []) → ∀ (whole : UInt32) (cut : Nat), cut ≤ maxRestTicks →
        ∃ s : Sheet, s.song = song ∧ s.ticksPerWhole = whole ∧ s.cutTicks = cut := by
  refine ⟨?_, ?_⟩
  · intro s
    obtain ⟨after, hs⟩ := s.sift_text
    have hset : (Key.all.foldl s.put {}).settings =
        .ok { samplesPerTick := s.samplesPerTick, generators := s.generators
              timing := ⟨s.ticksPerWhole.toNat, s.cutTicks⟩ } := rfl
    have hn : s.body.length = s.staves.length := by simp [Sheet.body]
    have he := encode_staves ⟨s.ticksPerWhole.toNat, s.cutTicks⟩ s.staves s.text_body
    simp only [load, hs, hset, s.arrange_body, Sheet.generators, List.length_map, hn, ne_eq,
      not_true, if_false, he]
    rfl
  · intro song hl ht hne hdata whole cut hc
    obtain ⟨ss, hs⟩ := exists_staves hl.spelled hl.looping hdata
    have hss : ss ≠ [] := by
      rintro rfl
      exact hne hs.symm
    have hn : song.attenuation = attenuationFor ss.length := by
      rw [hl.attenuation, ← hs, List.length_map]
    refine ⟨⟨song.samplesPerTick, whole, cut, ss, hl.rate, hc, hss⟩, ?_, rfl, rfl⟩
    simp only [Sheet.song, hs, ← hn, ← ht]

/-- One pitch under both its names, the highest pitch, and the longest rest. -/
theorem load_engraved_two_names :
    let first : Staff :=
      { generator := .noise32k
        marks := [⟨.note 12 1, ['B', '0'], by decide, by decide⟩,
          ⟨.note 12 255, ['c', '1'], by decide, by decide⟩]
        filled := by simp }
    let second : Staff :=
      { generator := .triangle
        marks := [⟨.rest 127, ['/'], by decide, by decide⟩,
          ⟨.note 71 9, ['b', '5'], by decide, by decide⟩]
        filled := by simp }
    let sheet : Sheet :=
      { samplesPerTick := 65535, ticksPerWhole := 4294967295, cutTicks := 127
        staves := [first, second]
        rated := by decide, cuttable := by decide, filled := by simp }
    let song : Song :=
      { samplesPerTick := 65535, attenuation := 1
        tracks := [{ data := [12, 1, 12, 255], generator := .noise32k },
          { data := [255, 71, 9], generator := .triangle }] }
    sheet.text =
        "> samps_per_tick: 65535\n> generators: noise32k, tri\n> ticks_per_whole: 4294967295\n> cut_ticks: 127\n\nB0-1 c1-255\n/-127 b5-9\n" ∧
      load sheet.text = .ok song ∧
      ∃ other : Sheet, other.song = song ∧ other.ticksPerWhole = 0 ∧ other.cutTicks = 0 := by
  intro first second sheet song
  have hl : load sheet.text = .ok song := load_engraved.1 sheet
  have he := load_engraved.2 song (loaded_of_load hl) rfl (by simp [song]) (by simp [song]) 0 0
    (by decide)
  exact ⟨by decide, hl, he⟩

end Polysynth.Score
