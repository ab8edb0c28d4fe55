import Polysynth.Proofs.HeaderEntries
import Polysynth.Proofs.Splitting
import Polysynth.Proofs.Unnumbered

namespace Polysynth.Score

def rawLines (text : String) : List (List Char) := Text.pieces (fun c => c == '\n') text.toList

def joined (ls : List (List Char)) : String := String.ofList (['\n'].intercalate ls)

def isComment (l : List Char) : Bool := l.head? == some '#'

def isEntry (l : List Char) : Bool := l.head? == some '>'

/-- The lines that are wanted, by what follows each of them. -/
def thin (unwanted : List Char → List (List Char) → Bool) : List (List Char) → List (List Char)
  | [] => []
  | l :: ls => if unwanted l ls then thin unwanted ls else l :: thin unwanted ls

def collapse : List (List Char) → List (List Char) := thin (fun l ls => l = [] ∧ ls.head? = some [])

def tidy (ls : List (List Char)) : List (List Char) :=
  collapse ((ls.dropWhile List.isEmpty).rdropWhile List.isEmpty)

/-- Header lines first, then the body, without comments. -/
def normalize (ls : List (List Char)) : List (List Char) :=
  let kept := ls.filter (fun l => !isComment l)
  kept.filter isEntry ++ tidy (kept.filter (fun l => !isEntry l))

def normalForm (text : String) : String := joined (normalize ((rawLines text).map Text.trim))

def withReturns (text : String) : String :=
  String.ofList (text.toList.flatMap (fun c => if c = '\n' then ['\r', '\n'] else [c]))

def keyOf? (l : List Char) : Option Key :=
  Line.entry? (.bare (Text.trim l)) >>= Header.key?

/-- Of the header lines of a key, only the last is kept. -/
def lastOfKeys : List (List Char) → List (List Char) :=
  thin (fun l ls => (keyOf? l).isSome ∧ keyOf? l ∈ ls.map keyOf?)

def withoutReplaced (text : String) : String := joined (lastOfKeys (rawLines text))

def entriesOf (ls : List (List Char)) : List (List Char) :=
  ls.filterMap (fun l => Line.entry? (.bare l))

def bodyOf (ls : List (List Char)) : List (List Char) := ls.filter (fun l => (Line.bare l).inBody)

def told (ls : List (List Char)) : Except Error Song :=
  compose (entriesOf ls) (blocks ((bodyOf ls).map Line.bare))

section Told

variable {ls : List (List Char)}

/-- Blanks at the ends of lines have no part in what a score says. -/
theorem mapError_load_eq_told (text : String) :
    (load text).mapError Error.unnumbered = told ((rawLines text).map Text.trim) := by
  have hc : (lines text.toList).map Line.unnumbered =
      ((rawLines text).map Text.trim).map Line.bare := by
    apply List.ext_getElem?
    intro i
    simp only [lines, rawLines, List.getElem?_map, List.getElem?_mapIdx]
    cases (Text.pieces (fun c => c == '\n') text.toList)[i]? <;> rfl
  rw [mapError_load, hc, List.filterMap_map, List.filter_map]
  rfl

theorem rawLines_joined (hn : ∀ l ∈ ls, '\n' ∉ l) (hne : ls ≠ []) : rawLines (joined ls) = ls := by
  unfold rawLines joined
  rw [String.toList_ofList]
  apply Text.pieces_intercalate (by decide) _ hne
  intro l hl c hc
  simpa using fun he : c = '\n' => hn l hl (he ▸ hc)

/-- A text that was put together from lines says what they say. -/
theorem mapError_load_joined (hn : ∀ l ∈ ls, '\n' ∉ l) :
    (load (joined ls)).mapError Error.unnumbered = told (ls.map Text.trim) := by
  rw [mapError_load_eq_told]
  cases ls with
  | nil => rfl
  | cons l ls => rw [rawLines_joined hn (List.cons_ne_nil l ls)]

theorem newline_not_mem (text : String) : ∀ l ∈ rawLines text, '\n' ∉ l := by
  intro l hl hm
  have hc := Text.unmarked_of_mem_pieces hl hm
  simp at hc

end Told

theorem thin_sublist (unwanted : List Char → List (List Char) → Bool) (ls : List (List Char)) :
    (thin unwanted ls).Sublist ls := by
  induction ls with
  | nil => exact List.Sublist.refl []
  | cons l ls ih =>
    rw [thin]
    split
    · exact ih.cons l
    · exact ih.cons_cons l

section Tidy

theorem collapse_cons (l : List Char) (ls : List (List Char)) :
    collapse (l :: ls) =
      if l = [] ∧ ls.head? = some [] then collapse ls else l :: collapse ls := by
  rw [collapse, thin]
  simp only [decide_eq_true_eq]

/-- Empty lines in a row part blocks as one empty line does. -/
theorem blocks_collapse (front : List Line) (ls : List (List Char)) :
    blocks (front ++ (collapse ls).map Line.bare) = blocks (front ++ ls.map Line.bare) := by
  -- A line that is kept joins those in front, blank or not.
  induction ls generalizing front with
  | nil => rfl
  | cons l ls ih =>
    rw [collapse_cons]
    split
    · rename_i hb
      obtain ⟨rfl, hh⟩ := hb
      obtain ⟨more, rfl⟩ := List.head?_eq_some_iff.mp hh
      have hr (more : List (List Char)) : blocks (front ++ ([] :: more).map Line.bare) =
          blocks front ++ blocks (more.map Line.bare) := blocks_append front rfl _
      rw [ih, hr, hr]
      exact congrArg (blocks front ++ ·) (blocks_cons_blank rfl _).symm
    · have hc (more : List (List Char)) : front ++ (l :: more).map Line.bare =
          (front ++ [Line.bare l]) ++ more.map Line.bare := by simp
      rw [hc, hc, ih]

/-- Empty lines before the first block part nothing. -/
theorem blocks_dropWhile (ls : List (List Char)) :
    blocks ((ls.dropWhile List.isEmpty).map Line.bare) = blocks (ls.map Line.bare) := by
  induction ls with
  | nil => rfl
  | cons l ls ih =>
    cases l with
    | nil => exact ih.trans (blocks_cons_blank rfl _).symm
    | cons c l => rfl

theorem blocks_rdropWhile (ls : List (List Char)) :
    blocks ((ls.rdropWhile List.isEmpty).map Line.bare) = blocks (ls.map Line.bare) := by
  induction ls using List.reverseRecOn with
  | nil => rfl
  | append_singleton ls l ih =>
    cases l with
    | nil =>
      rw [List.rdropWhile_concat_pos _ _ _ rfl, ih, List.map_append, List.map_singleton,
        blocks_append _ rfl]
      exact (List.append_nil _).symm
    | cons c l => rw [List.rdropWhile_concat_neg _ _ _ (by simp)]

theorem blocks_tidy (ls : List (List Char)) :
    blocks ((tidy ls).map Line.bare) = blocks (ls.map Line.bare) := by
  rw [← blocks_dropWhile ls, ← blocks_rdropWhile (ls.dropWhile List.isEmpty)]
  exact blocks_collapse [] _

theorem tidy_sublist (ls : List (List Char)) : (tidy ls).Sublist ls :=
  (thin_sublist _ _).trans
    ((List.rdropWhile_prefix _ _).sublist.trans (List.dropWhile_sublist _))

end Tidy

section Normalize

variable {l : List Char} {ls : List (List Char)}

theorem inBody_bare (l : List Char) : (Line.bare l).inBody = (!isComment l && !isEntry l) := rfl

theorem isEntry_of_entry {entry : List Char} (he : Line.entry? (.bare l) = some entry) :
    isEntry l = true := by
  have ht : l = '>' :: entry := Line.entry?_eq_some_iff.mp he
  rw [ht]
  rfl

theorem not_inBody_of_entry {entry : List Char} (he : Line.entry? (.bare l) = some entry) :
    (Line.bare l).inBody = false := by
  rw [inBody_bare, isEntry_of_entry he]
  simp

theorem not_isComment_of_isEntry (h : isEntry l = true) : isComment l = false := by
  have hh : l.head? = some '>' := by simpa [isEntry] using h
  rw [isComment, hh]
  rfl

theorem entriesOf_append (as bs : List (List Char)) :
    entriesOf (as ++ bs) = entriesOf as ++ entriesOf bs :=
  List.filterMap_append

/-- Header entries keep their order. -/
theorem entriesOf_normalize (ls : List (List Char)) : entriesOf (normalize ls) = entriesOf ls := by
  have hbody : entriesOf (tidy ((ls.filter (fun l => !isComment l)).filter (fun l => !isEntry l))) =
      [] := by
    apply List.filterMap_eq_nil_iff.mpr
    intro l hl
    have hm := (tidy_sublist _).subset hl
    have hn : isEntry l = false := by simpa using (List.mem_filter.mp hm).2
    cases he : Line.entry? (.bare l) with
    | none => rfl
    | some entry => rw [isEntry_of_entry he] at hn; cases hn
  rw [normalize, entriesOf_append, hbody, List.append_nil]
  unfold entriesOf
  rw [List.filter_filter, List.filterMap_filter]
  apply List.filterMap_congr
  intro l _
  cases he : Line.entry? (.bare l) with
  | none => simp
  | some entry =>
    have hm := isEntry_of_entry he
    simp [hm, not_isComment_of_isEntry hm]

theorem bodyOf_normalize (ls : List (List Char)) : bodyOf (normalize ls) = tidy (bodyOf ls) := by
  have hb : (ls.filter (fun l => !isComment l)).filter (fun l => !isEntry l) = bodyOf ls := by
    rw [List.filter_filter]
    apply List.filter_congr
    intro l _
    rw [inBody_bare, Bool.and_comm]
  have hfront : bodyOf ((ls.filter (fun l => !isComment l)).filter isEntry) = [] := by
    apply List.filter_eq_nil_iff.mpr
    intro l hl
    rw [inBody_bare, (List.mem_filter.mp hl).2]
    simp
  have htidy : bodyOf (tidy (bodyOf ls)) = tidy (bodyOf ls) := by
    apply List.filter_eq_self.mpr
    intro l hl
    exact (List.mem_filter.mp ((tidy_sublist _).subset hl)).2
  rw [normalize, hb, bodyOf, List.filter_append]
  change bodyOf _ ++ bodyOf _ = _
  rw [hfront, htidy, List.nil_append]

/-- Trimmed lines tell the same song in the plainest layout. -/
theorem told_normalize (ls : List (List Char)) : told (normalize ls) = told ls := by
  rw [told, entriesOf_normalize, bodyOf_normalize, blocks_tidy]
  rfl

theorem mem_of_mem_normalize (h : l ∈ normalize ls) : l ∈ ls := by
  rcases List.mem_append.mp h with h | h
  · exact List.mem_of_mem_filter (List.mem_of_mem_filter h)
  · exact List.mem_of_mem_filter (List.mem_of_mem_filter ((tidy_sublist _).subset h))

/-- The normal form says what the text says, down to the fault if there is one. -/
theorem mapError_load_normalForm (text : String) :
    (load (normalForm text)).mapError Error.unnumbered = (load text).mapError Error.unnumbered := by
  have htrimmed : ∀ l ∈ normalize ((rawLines text).map Text.trim), ∃ raw ∈ rawLines text,
      Text.trim raw = l := fun l hl => List.mem_map.mp (mem_of_mem_normalize hl)
  have hn : ∀ l ∈ normalize ((rawLines text).map Text.trim), '\n' ∉ l := by
    intro l hl hm
    obtain ⟨raw, hr, rfl⟩ := htrimmed l hl
    exact newline_not_mem text raw hr ((Text.trim_sublist raw).subset hm)
  have ht : (normalize ((rawLines text).map Text.trim)).map Text.trim =
      normalize ((rawLines text).map Text.trim) := by
    rw [List.map_congr_left, List.map_id]
    intro l hl
    obtain ⟨raw, _, rfl⟩ := htrimmed l hl
    exact Text.trim_trim raw
  rw [normalForm, mapError_load_joined hn, ht, told_normalize, mapError_load_eq_told]

end Normalize

section Returns

theorem map_trim_pieces_returns (front cs : List Char) (hf : '\n' ∉ front) :
    (Text.pieces (fun c => c == '\n')
      (front ++ cs.flatMap (fun c => if c = '\n' then ['\r', '\n'] else [c]))).map Text.trim =
    (Text.pieces (fun c => c == '\n') (front ++ cs)).map Text.trim := by
  -- The line that is being read grows in front, until a line feed ends it. Only there are the two
  -- texts different, by one blank.
  induction cs generalizing front with
  | nil => rfl
  | cons c cs ih =>
    rw [List.flatMap_cons]
    have hu : ∀ d ∈ front, (d == '\n') = false := by
      intro d hd
      simpa using fun he : d = '\n' => hf (he ▸ hd)
    by_cases hc : c = '\n'
    · rw [if_pos hc, hc]
      have hr : ∀ d ∈ front ++ ['\r'], (d == '\n') = false := by
        intro d hd
        rcases List.mem_append.mp hd with hd | hd
        · exact hu d hd
        · rw [List.mem_singleton.mp hd]
          rfl
      have hs (more : List Char) : front ++ (['\r', '\n'] ++ more) =
          (front ++ ['\r']) ++ '\n' :: more := by simp
      rw [hs, Text.pieces_append_marked hr rfl, Text.pieces_append_marked hu rfl, List.map_cons,
        List.map_cons, Text.trim_concat_blank (by decide), ← List.nil_append (cs.flatMap _),
        ih [] (by simp)]
      rfl
    · rw [if_neg hc]
      have hs (more : List Char) : front ++ ([c] ++ more) = (front ++ [c]) ++ more := by simp
      have hn : '\n' ∉ front ++ [c] := by simp [hf, Ne.symm hc]
      rw [hs, ih _ hn, ← hs]
      rfl

/-- A carriage return is a blank, so it goes with the others at the end of its line. -/
theorem lines_withReturns (text : String) :
    lines (withReturns text).toList = lines text.toList := by
  unfold lines withReturns
  rw [String.toList_ofList]
  exact congrArg _ (map_trim_pieces_returns [] text.toList (by simp))

end Returns

section Replaced

variable {l : List Char} {ls : List (List Char)} {h : Header}

theorem lastOfKeys_cons (l : List Char) (ls : List (List Char)) :
    lastOfKeys (l :: ls) =
      if (keyOf? l).isSome ∧ keyOf? l ∈ ls.map keyOf? then lastOfKeys ls
      else l :: lastOfKeys ls := by
  rw [lastOfKeys, thin]
  simp only [decide_eq_true_eq]

theorem keyOf_eq_some_iff {key : Key} : keyOf? l = some key ↔
    ∃ entry, Line.entry? (.bare (Text.trim l)) = some entry ∧ Header.key? entry = some key :=
  Option.bind_eq_some_iff

/-- Leaving out header lines leaves the body alone. -/
theorem bodyOf_lastOfKeys (ls : List (List Char)) :
    bodyOf ((lastOfKeys ls).map Text.trim) = bodyOf (ls.map Text.trim) := by
  induction ls with
  | nil => rfl
  | cons l ls ih =>
    rw [lastOfKeys_cons]
    split
    · rename_i hr
      obtain ⟨key, hk⟩ := Option.isSome_iff_exists.mp hr.1
      obtain ⟨entry, he, _⟩ := keyOf_eq_some_iff.mp hk
      rw [ih, List.map_cons, bodyOf, bodyOf, List.filter_cons_of_neg]
      rw [not_inBody_of_entry he]
      simp
    · unfold bodyOf at ih ⊢
      rw [List.map_cons, List.map_cons, List.filter_cons, List.filter_cons, ih]

theorem entriesOf_cons_entry {entry : List Char} (he : Line.entry? (.bare l) = some entry)
    (ls : List (List Char)) : entriesOf (l :: ls) = entry :: entriesOf ls :=
  List.filterMap_cons_some (f := fun l => Line.entry? (.bare l)) he

theorem entriesOf_cons_other (he : Line.entry? (.bare l) = none) (ls : List (List Char)) :
    entriesOf (l :: ls) = entriesOf ls :=
  List.filterMap_cons_none (f := fun l => Line.entry? (.bare l)) he

theorem has_of_mem_keys {key : Key} (hr : (entriesOf (ls.map Text.trim)).foldlM Header.read {} = .ok h)
    (hm : some key ∈ ls.map keyOf?) : h.has key = true := by
  obtain ⟨later, hl, hk⟩ := List.mem_map.mp hm
  obtain ⟨entry, he, hkey⟩ := keyOf_eq_some_iff.mp hk
  have hentry : entry ∈ entriesOf (ls.map Text.trim) :=
    List.mem_filterMap.mpr ⟨Text.trim later, List.mem_map_of_mem hl, he⟩
  exact Header.has_of_foldlM_read hr hentry hkey

/-- A header line whose key comes again may be left out. -/
theorem read_lastOfKeys (hr : (entriesOf (ls.map Text.trim)).foldlM Header.read {} = .ok h) :
    (entriesOf ((lastOfKeys ls).map Text.trim)).foldlM Header.read {} = .ok h := by
  induction ls generalizing h with
  | nil => exact hr
  | cons l ls ih =>
    rw [List.map_cons] at hr
    rw [lastOfKeys_cons]
    cases he : Line.entry? (.bare (Text.trim l)) with
    | none =>
      have hk : keyOf? l = none := by
        rw [keyOf?, he]
        rfl
      rw [entriesOf_cons_other he] at hr
      rw [if_neg (by simp [hk]), List.map_cons, entriesOf_cons_other he]
      exact ih hr
    | some entry =>
      rw [entriesOf_cons_entry he] at hr
      obtain ⟨new, top, hn, ht, rfl⟩ := Header.foldlM_read_cons hr
      obtain ⟨key, hkey, hhas⟩ := Header.has_read hn
      have hk : keyOf? l = some key := keyOf_eq_some_iff.mpr ⟨entry, he, hkey⟩
      split
      · rename_i hreplaced
        -- The later entry of the key hides this one.
        have htop : top.has key = true := has_of_mem_keys ht (hk ▸ hreplaced.2)
        have hidden : top.overlay (new.overlay {}) = top.overlay {} := by
          apply Header.overlay_hidden
          intro other ho
          rw [hhas] at ho
          rw [of_decide_eq_true ho]
          exact htop
        rw [Header.overlay_empty, Header.overlay_empty] at hidden
        rw [hidden]
        exact ih ht
      · rw [List.map_cons, entriesOf_cons_entry he, List.foldlM_cons, hn]
        change (entriesOf ((lastOfKeys ls).map Text.trim)).foldlM Header.read new = _
        rw [Header.foldlM_read_eq_overlay, ih ht]
        rfl

theorem read_of_told {song : Song} (hs : told ls = .ok song) :
    ∃ header, (entriesOf ls).foldlM Header.read {} = .ok header := by
  unfold told compose at hs
  cases hf : (entriesOf ls).foldlM Header.read {} with
  | error fault => rw [hf] at hs; cases hs
  | ok header => exact ⟨header, rfl⟩

/-- An entry that a later one of its key covers has no part in the song. -/
theorem told_lastOfKeys {song : Song} (hs : told (ls.map Text.trim) = .ok song) :
    told ((lastOfKeys ls).map Text.trim) = .ok song := by
  obtain ⟨header, hr⟩ := read_of_told hs
  rw [← hs, told, told, compose, compose, hr, read_lastOfKeys hr, bodyOf_lastOfKeys]

end Replaced

/-- This goes one way only, since an entry that is replaced may still be refused. -/
theorem load_withoutReplaced {text : String} {song : Song} (h : load text = .ok song) :
    load (withoutReplaced text) = .ok song := by
  have hn : ∀ l ∈ lastOfKeys (rawLines text), '\n' ∉ l := fun l hl =>
    newline_not_mem text l ((thin_sublist _ _).subset hl)
  rw [← mapError_eq_ok_iff, mapError_load_eq_told] at h
  rw [← mapError_eq_ok_iff, withoutReplaced, mapError_load_joined hn]
  exact told_lastOfKeys h

/-- The layout of a score has no part in what it says. In its normal form it gives the same song, or
is refused for the same reason, though perhaps at another line. With carriage returns before the
line feeds it gives the same answer, lines included. And if it gives a song, it gives the same one
when of the header lines of each key only the last is left. -/
theorem load_ignores_layout (text : String) :
    ((∃ song, load text = .ok song ∧ load (normalForm text) = .ok song) ∨
      ∃ e e', load text = .error e ∧ load (normalForm text) = .error e' ∧
        e.unnumbered = e'.unnumbered) ∧
    load (withReturns text) = load text ∧
    ∀ song, load text = .ok song → load (withoutReplaced text) = .ok song := by
  refine ⟨?_, ?_, fun song => load_withoutReplaced⟩
  · have hnormal := mapError_load_normalForm text
    cases hl : load text with
    | ok song =>
      rw [hl] at hnormal
      exact .inl ⟨song, rfl, mapError_eq_ok_iff.mp hnormal⟩
    | error e =>
      rw [hl] at hnormal
      cases hn : load (normalForm text) with
      | ok song => rw [hn] at hnormal; cases hnormal
      | error e' =>
        rw [hn] at hnormal
        exact .inr ⟨e, e', rfl, rfl, (Except.error.inj hnormal).symm⟩
  · unfold load
    rw [lines_withReturns]

/-- Blanks, comments and header lines in between, a run of empty lines with a comment in it, and a
key that comes twice. And a block that is too long, below a comment that the normal form leaves
out. -/
theorem load_ignores_layout_scattered :
    let text :=
      "\n  c0-1  \n# low\n/-2\n\n # between\n \nd0-3\n> generators: saw\n> samps_per_tick: 2\n\t> generators: saw, tri\n> ticks_per_whole: 8\n>cut_ticks: 1\n\n"
    let normal :=
      "> generators: saw\n> samps_per_tick: 2\n> generators: saw, tri\n> ticks_per_whole: 8\n>cut_ticks: 1\nc0-1\n/-2\n\nd0-3"
    let last :=
      "\n  c0-1  \n# low\n/-2\n\n # between\n \nd0-3\n> samps_per_tick: 2\n\t> generators: saw, tri\n> ticks_per_whole: 8\n>cut_ticks: 1\n\n"
    let long :=
      "c0-1\n\nd0-1\n# high\n?\n> samps_per_tick: 2\n> generators: saw\n> ticks_per_whole: 8\n> cut_ticks: 1"
    let song : Song :=
      { samplesPerTick := 2, attenuation := 1
        tracks := [{ data := [0, 1, 2, 3], generator := .saw },
          { data := [130], generator := .triangle }] }
    normalForm text = normal ∧ load normal = .ok song ∧ withoutReplaced text = last ∧
      load last = .ok song ∧ load long = .error (.blockShape 5 1 2) ∧
      ∃ e, load (normalForm long) = .error e ∧ e.unnumbered = .blockShape 0 1 2 := by
  intro text normal last long song
  obtain ⟨hs, hnormal, hlast⟩ : load text = .ok song ∧ normalForm text = normal ∧
      withoutReplaced text = last := by
    decide +kernel
  have hl : load long = .error (.blockShape 5 1 2) := by decide +kernel
  obtain ⟨hn, _, hr⟩ := load_ignores_layout text
  refine ⟨hnormal, ?_, hlast, ?_, hl, ?_⟩
  · rcases hn with ⟨other, ho, hn⟩ | ⟨e, _, he, _⟩
    · rw [hs] at ho
      rw [← hnormal, hn, ho]
    · rw [hs] at he
      cases he
  · rw [← hlast]
    exact hr song hs
  · rcases (load_ignores_layout long).1 with ⟨other, ho, _⟩ | ⟨e, e', he, hn, hu⟩
    · rw [hl] at ho
      cases ho
    · rw [hl] at he
      cases he
      exact ⟨e', hn, hu.symm⟩

end Polysynth.Score
