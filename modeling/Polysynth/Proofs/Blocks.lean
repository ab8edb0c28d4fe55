import Mathlib.Data.List.Perm.Basic
import Polysynth.Proofs.Passes

namespace Polysynth.Score

def blocks (body : List Line) : List (List Line) :=
  (body.splitOnP (fun line => line.text.isEmpty)).filter (fun block => !block.isEmpty)

/-- The lines at one place in their blocks. Blocks that are too short have none there. -/
def column (bs : List (List Line)) (k : Nat) : List Line := bs.filterMap (fun b => b[k]?)

def excess (n : Nat) (bs : List (List Line)) : List Line := bs.flatMap (List.drop n)

def deal : List (List Line) → Except Error (List (List Line))
  | [] => .error .noTracks
  | first :: later =>
    match (excess first.length later).head? with
    | some line => .error (.blockShape line.number first.length (first.length + 1))
    | none => .ok ((List.range first.length).map (column (first :: later)))

def spread (tracks bs : List (List Line)) : List (List Line) :=
  tracks.mapIdx (fun k ls => ls ++ column bs k)

def Token.bytes (timing : Timing) (word : List Char) : List UInt8 :=
  (Token.encode timing word).toOption.getD []

def Line.bytes (timing : Timing) (line : Line) : List UInt8 :=
  (Text.words line.text).flatMap (Token.bytes timing)

def Line.Valid (timing : Timing) (line : Line) : Prop :=
  ∀ w ∈ Text.words line.text, (Token.encode timing w).isOk

instance (timing : Timing) (line : Line) : Decidable (line.Valid timing) :=
  inferInstanceAs (Decidable (∀ w ∈ Text.words line.text, (Token.encode timing w).isOk = true))

/-- A body is its blocks, one after the other. The last of them need not end. -/
theorem body_induction {motive : List Line → Prop}
    (last : ∀ block, (∀ line ∈ block, line.text ≠ []) → motive block)
    (more : ∀ block blank rest, (∀ line ∈ block, line.text ≠ []) → blank.text = [] →
      motive rest → motive (block ++ blank :: rest))
    (body : List Line) : motive body := by
  -- The block that is being read grows along the induction, until a blank line ends it.
  suffices h : ∀ block, (∀ line ∈ block, line.text ≠ []) → motive (block ++ body) from
    h [] (by simp)
  induction body with
  | nil =>
    intro block hb
    simpa using last block hb
  | cons line body ih =>
    intro block hb
    by_cases hl : line.text = []
    · exact more block line body hb hl (ih [] (by simp))
    · have hn : ∀ d ∈ block ++ [line], d.text ≠ [] := by
        intro d hd
        rcases List.mem_append.mp hd with hd | hd
        · exact hb d hd
        · rw [List.mem_singleton.mp hd]
          exact hl
      simpa using ih (block ++ [line]) hn

theorem blocks_block {block : List Line} (hb : ∀ line ∈ block, line.text ≠ [])
    (hne : block ≠ []) : blocks block = [block] := by
  have hs : block.splitOnP (fun line => line.text.isEmpty) = [block] := by
    apply List.splitOnP_eq_singleton
    intro line hl
    simpa using hb line hl
  simp [blocks, hs, hne]

/-- A blank line ends a block, whatever follows. -/
theorem blocks_append (block : List Line) {blank : Line} (hk : blank.text = [])
    (rest : List Line) : blocks (block ++ blank :: rest) = blocks block ++ blocks rest := by
  simp [blocks, List.splitOnP_append_cons, hk]

theorem flatten_blocks_block {block : List Line} (hb : ∀ line ∈ block, line.text ≠ []) :
    (blocks block).flatten = block := by
  by_cases hne : block = []
  · rw [hne]
    rfl
  · simp [blocks_block hb hne]

theorem blocks_cons_blank {blank : Line} (hk : blank.text = []) (rest : List Line) :
    blocks (blank :: rest) = blocks rest :=
  blocks_append [] hk rest

/-- The first line too many is in the block at hand, or else in a later one. -/
theorem head_excess_blocks {block : List Line} (hb : ∀ line ∈ block, line.text ≠ []) (n : Nat)
    (bs : List (List Line)) :
    (excess n (blocks block ++ bs)).head? = block[n]?.or (excess n bs).head? := by
  by_cases hne : block = []
  · simp [hne, blocks]
  · simp [blocks_block hb hne, excess, List.head?_append]

/-- The blocks hold every line of the body that is not blank, in the order of the text. -/
theorem flatten_blocks (body : List Line) :
    (blocks body).flatten = body.filter (fun line => !line.text.isEmpty) := by
  have hf {block : List Line} (hb : ∀ line ∈ block, line.text ≠ []) :
      block.filter (fun line => !line.text.isEmpty) = block := by
    apply List.filter_eq_self.mpr
    intro line hl
    simpa using hb line hl
  induction body using body_induction with
  | last block hb => rw [flatten_blocks_block hb, hf hb]
  | more block blank rest hb hk ih =>
    rw [blocks_append block hk, List.flatten_append, flatten_blocks_block hb, ih]
    simp [hf hb, hk]

section Columns

variable (b : List Line) (bs : List (List Line)) (k : Nat)

theorem column_cons : column (b :: bs) k = b[k]?.toList ++ column bs k := by
  unfold column
  cases hb : b[k]? <;> simp [hb]

theorem column_append (cs : List (List Line)) : column (bs ++ cs) k = column bs k ++ column cs k :=
  List.filterMap_append

variable {bs k}

theorem mem_flatten_of_mem_column {line : Line} (h : line ∈ column bs k) : line ∈ bs.flatten := by
  obtain ⟨b, hb, hl⟩ := List.mem_filterMap.mp h
  exact List.mem_flatten.mpr ⟨b, hb, List.mem_of_getElem? hl⟩

theorem flatMap_getElem_range {b : List Line} {n : Nat} (hn : b.length ≤ n) :
    (List.range n).flatMap (fun k => b[k]?.toList) = b := by
  induction b generalizing n with
  | nil => simp
  | cons line b ih =>
    cases n with
    | zero => simp at hn
    | succ n =>
      rw [List.range_succ_eq_map, List.flatMap_cons, List.flatMap_map]
      simpa using ih (Nat.le_of_succ_le_succ hn)

/-- The columns share out the lines of the blocks. -/
theorem flatMap_column_perm {n : Nat} (hn : ∀ b ∈ bs, b.length ≤ n) :
    ((List.range n).flatMap (column bs)).Perm bs.flatten := by
  induction bs with
  | nil => simp [column]
  | cons b bs ih =>
    have hc := List.flatMap_append_perm (List.range n) (fun k => b[k]?.toList) (column bs)
    rw [flatMap_getElem_range (hn b (by simp))] at hc
    rw [funext (column_cons b bs), List.flatten_cons]
    exact hc.symm.trans ((ih (fun d hd => hn d (by simp [hd]))).append_left b)

theorem head_excess (n : Nat) (bs : List (List Line)) :
    (excess n bs).head? = bs.findSome? (fun b => b[n]?) := by
  simp [excess, List.head?_flatMap]

theorem head_excess_eq_none_iff {n : Nat} :
    (excess n bs).head? = none ↔ ∀ b ∈ bs, b.length ≤ n := by
  simp [head_excess]

end Columns

section Deal

variable {first : List Line} {later : List (List Line)}

/-- The first line that has no track is the one that is named. -/
theorem deal_of_excess {line : Line} (hx : (excess first.length later).head? = some line) :
    deal (first :: later) =
      .error (.blockShape line.number first.length (first.length + 1)) := by
  rw [deal, hx]

theorem deal_of_fits (hn : ∀ b ∈ later, b.length ≤ first.length) :
    deal (first :: later) = .ok ((List.range first.length).map (column (first :: later))) := by
  rw [deal, head_excess_eq_none_iff.mpr hn]

theorem deal_eq_noTracks_iff {bs : List (List Line)} : deal bs = .error .noTracks ↔ bs = [] := by
  cases bs with
  | nil => simp [deal]
  | cons first later =>
    simp only [deal]
    split <;> simp

/-- Only a block longer than the first is refused. A shorter one just leaves tracks out. -/
theorem deal_blockShape_iff :
    (∃ number expected found,
      deal (first :: later) = .error (.blockShape number expected found)) ↔
      ∃ b ∈ later, first.length < b.length := by
  cases hx : (excess first.length later).head? with
  | none =>
    have hn := head_excess_eq_none_iff.mp hx
    simpa [deal_of_fits hn] using hn
  | some line =>
    have hn : ¬ ∀ b ∈ later, b.length ≤ first.length := by
      rw [← head_excess_eq_none_iff, hx]
      nofun
    simpa [deal_of_excess hx] using hn

end Deal

section Spread

variable (ts : List (List Line))

@[simp] theorem length_spread (bs : List (List Line)) : (spread ts bs).length = ts.length := by
  simp [spread]

theorem spread_nil : spread ts [] = ts := by
  apply List.ext_getElem <;> simp [spread, column]

/-- Blocks may be dealt out in two goes. -/
theorem spread_spread (bs cs : List (List Line)) :
    spread (spread ts bs) cs = spread ts (bs ++ cs) := by
  simp [spread, column_append, List.mapIdx_mapIdx, Function.comp_def]

theorem spread_empty_block : spread ts [[]] = ts := by
  apply List.ext_getElem <;> simp [spread, column]

theorem spread_blocks {block : List Line} (hb : ∀ line ∈ block, line.text ≠ [])
    (bs : List (List Line)) : spread ts (blocks block ++ bs) = spread (spread ts [block]) bs := by
  by_cases hne : block = []
  · simp [hne, blocks, spread_empty_block]
  · rw [blocks_block hb hne, spread_spread]

/-- The tracks that the first block begins. -/
theorem spread_opening (first : List Line) (later : List (List Line)) :
    spread (first.map (fun line => [line])) later =
      (List.range first.length).map (column (first :: later)) := by
  apply List.ext_getElem
  · simp
  · intro k hk _
    have hk : k < first.length := by simpa using hk
    simp [spread, column_cons, hk]

/-- One more line of a block goes to the next track. -/
theorem spread_push (seen : List Line) (line : Line) :
    (spread ts [seen]).modify seen.length (fun ls => ls ++ [line]) =
      spread ts [seen ++ [line]] := by
  apply List.ext_getElem
  · simp
  · intro i _ _
    simp only [spread, List.getElem_modify, List.getElem_mapIdx, column_cons]
    rcases Nat.lt_trichotomy i seen.length with hi | rfl | hi
    · rw [if_neg (Nat.ne_of_gt hi), List.getElem?_append_left hi]
    · simp [column]
    · have hs : seen[i]? = none := List.getElem?_eq_none (Nat.le_of_lt hi)
      have hp : (seen ++ [line])[i]? = none := List.getElem?_eq_none (by simp; omega)
      rw [if_neg (Nat.ne_of_lt hi), hs, hp]

end Spread

namespace Layout

theorem addAll_cons {l l' : Layout} {line : Line} (h : l.add line = .ok l') (ls : List Line) :
    l.addAll (line :: ls) = l'.addAll ls := by
  rw [Layout.addAll, h]
  rfl

/-- In the first block every line begins a track. -/
theorem addAll_opening (tracks : List (List Line)) (row : Nat) {ls : List Line}
    (hl : ∀ line ∈ ls, line.text ≠ []) (more : List Line) :
    ({ tracks := tracks, row := row } : Layout).addAll (ls ++ more) =
      ({ tracks := tracks ++ ls.map (fun line => [line]), row := row + ls.length } : Layout).addAll
        more := by
  induction ls generalizing tracks row with
  | nil => simp
  | cons line ls ih =>
    have ha : ({ tracks := tracks, row := row } : Layout).add line =
        .ok { tracks := tracks ++ [[line]], row := row + 1 } := by
      simp [Layout.add, hl line (by simp)]
    rw [List.cons_append, addAll_cons ha, ih _ _ (fun d hd => hl d (by simp [hd]))]
    simp [Nat.add_assoc, Nat.add_comm 1]

/-- The layout within a later block, of which some lines have been read. -/
def within (ts : List (List Line)) (seen : List Line) : Layout :=
  { tracks := spread ts [seen], opening := false, row := seen.length }

variable {ts : List (List Line)} {seen block : List Line} {line : Line}

theorem within_nil : within ts [] = { tracks := ts, opening := false } := by
  simp [within, spread_empty_block]

/-- A line of a later block goes to the track at its place. -/
theorem within_add (hl : line.text ≠ []) (hn : seen.length < ts.length) :
    (within ts seen).add line = .ok (within ts (seen ++ [line])) := by
  simp [within, Layout.add, hl, hn, spread_push]

/-- A block that is not longer than the first gives its lines to the tracks in order. -/
theorem within_addAll (hb : ∀ line ∈ block, line.text ≠ [])
    (hn : (seen ++ block).length ≤ ts.length) (more : List Line) :
    (within ts seen).addAll (block ++ more) = (within ts (seen ++ block)).addAll more := by
  induction block generalizing seen with
  | nil => simp
  | cons line block ih =>
    have ha : (within ts seen).add line = .ok (within ts (seen ++ [line])) :=
      within_add (hb line (by simp)) (by simp at hn; omega)
    rw [List.cons_append, addAll_cons ha, ih (fun d hd => hb d (by simp [hd])) (by simpa using hn)]
    simp

/-- A longer block is refused at its first line that no track is left for. -/
theorem within_addAll_refused (hb : ∀ line ∈ block, line.text ≠ [])
    (hl : block[ts.length]? = some line) (more : List Line) :
    (within ts []).addAll (block ++ more) =
      .error (.blockShape line.number ts.length (ts.length + 1)) := by
  -- The lines before the refused one fill every track.
  obtain ⟨hn, rfl⟩ := List.getElem?_eq_some_iff.mp hl
  have hfull : (block.take ts.length).length = ts.length := by simp [Nat.le_of_lt hn]
  have hs : block ++ more =
      block.take ts.length ++ (block[ts.length] :: (block.drop (ts.length + 1) ++ more)) := by
    rw [← List.cons_append, ← List.drop_eq_getElem_cons, ← List.append_assoc,
      List.take_append_drop]
  rw [hs, within_addAll (fun d hd => hb d (List.mem_of_mem_take hd)) (by simp [hfull]), addAll]
  simp [within, Layout.add, hb, hfull, Except.bind]

/-- A later block goes to the tracks as a whole, unless it has a line too many. -/
theorem addAll_block (ts : List (List Line)) (hb : ∀ line ∈ block, line.text ≠ [])
    (more : List Line) :
    ({ tracks := ts, opening := false } : Layout).addAll (block ++ more) =
      match block[ts.length]? with
      | some line => .error (.blockShape line.number ts.length (ts.length + 1))
      | none => (within ts block).addAll more := by
  rw [← within_nil]
  cases hl : block[ts.length]? with
  | some line => exact within_addAll_refused hb hl more
  | none => exact within_addAll hb (by simpa using hl) more

/-- After the first block, the blocks go to the tracks until one of them is too long. -/
theorem addAll_closed (ts : List (List Line)) (body : List Line) :
    (({ tracks := ts, opening := false } : Layout).addAll body).map Layout.tracks =
      match (excess ts.length (blocks body)).head? with
      | some line => .error (.blockShape line.number ts.length (ts.length + 1))
      | none => .ok (spread ts (blocks body)) := by
  induction body using body_induction generalizing ts with
  | last block hb =>
    have ha := addAll_block ts hb []
    rw [List.append_nil] at ha
    rw [ha, ← List.append_nil (blocks block), head_excess_blocks hb, spread_blocks ts hb]
    cases block[ts.length]? with
    | some line => rfl
    | none => simp [excess, spread_nil, within, addAll, Except.map]
  | more block blank rest hb hk ih =>
    rw [addAll_block ts hb, blocks_append block hk, head_excess_blocks hb, spread_blocks ts hb]
    cases block[ts.length]? with
    | some line => rfl
    | none =>
      have hadd : (within ts block).add blank =
          .ok { tracks := spread ts [block], opening := false } := by
        simp [within, Layout.add, hk]
      have hr := ih (spread ts [block])
      rw [length_spread] at hr
      rw [Option.none_or, ← hr, ← addAll_cons hadd]

theorem arrange_eq_tracks (body : List Line) :
    arrange body = ((({} : Layout).addAll body).map Layout.tracks).bind
      (fun ts => if ts.isEmpty then .error .noTracks else .ok ts) := by
  unfold arrange
  cases ({} : Layout).addAll body <;> rfl

/-- Read line by line, a body gives the tracks what its blocks give them. -/
theorem arrange_eq_deal (body : List Line) : arrange body = deal (blocks body) := by
  induction body using body_induction with
  | last block hb =>
    by_cases hne : block = []
    · rw [hne]
      rfl
    · have ha := addAll_opening [] 0 hb []
      rw [List.append_nil] at ha
      rw [arrange_eq_tracks, ha, blocks_block hb hne, deal, ← spread_opening, spread_nil]
      simp [addAll, excess, Except.map, Except.bind, hne]
  | more block blank rest hb hk ih =>
    by_cases hne : block = []
    · -- A blank line before the first block changes nothing.
      have hadd : ({} : Layout).add blank = .ok {} := by simp [Layout.add, hk]
      rw [hne, List.nil_append, blocks_cons_blank hk, ← ih, arrange, arrange, addAll_cons hadd]
    · -- The blank line ends the first block, so the rest is read with the tracks it began.
      let ts := block.map (fun line => [line])
      have hadd : ({ tracks := ts, row := 0 + block.length } : Layout).add blank =
          .ok { tracks := ts, opening := false } := by
        simp [Layout.add, hk, hne]
      have hc := addAll_closed ts rest
      rw [List.length_map] at hc
      rw [arrange_eq_tracks, addAll_opening [] 0 hb, List.nil_append, addAll_cons hadd, hc,
        blocks_append block hk, blocks_block hb hne, List.singleton_append, deal, spread_opening]
      cases (excess block.length (blocks rest)).head? with
      | some line => rfl
      | none => simp [Except.bind, hne]

end Layout

section Encoding

variable {timing : Timing}

theorem Token.encode_eq_bytes {w : List Char} (h : (Token.encode timing w).isOk) :
    Token.encode timing w = .ok (Token.bytes timing w) := by
  unfold Token.bytes
  cases he : Token.encode timing w with
  | error fault => rw [he] at h; cases h
  | ok bytes => rfl

theorem encodeWords_of_valid (number : Nat) {ws : List (List Char)}
    (h : ∀ w ∈ ws, (Token.encode timing w).isOk) :
    encodeWords timing number ws [] = .ok (ws.flatMap (Token.bytes timing)) := by
  induction ws with
  | nil => rfl
  | cons w ws ih =>
    rw [encodeWords_cons, Token.encode_eq_bytes (h w (by simp)), ih (fun v hv => h v (by simp [hv]))]
    rfl

theorem encodeLines_of_valid {ls : List Line} (h : ∀ line ∈ ls, line.Valid timing) :
    encodeLines timing ls [] = .ok (ls.flatMap (Line.bytes timing)) := by
  induction ls with
  | nil => rfl
  | cons line ls ih =>
    rw [encodeLines_cons, encodeWords_of_valid line.number (h line (by simp)),
      ih (fun d hd => h d (by simp [hd]))]
    rfl

/-- Without a refused token, a track is the bytes of its tokens, line after line. -/
theorem encodeTracks_of_valid {parts : List (List Line × Generator)}
    (h : ∀ part ∈ parts, ∀ line ∈ part.1, line.Valid timing) :
    encodeTracks timing parts = .ok (parts.map fun (ls, g) =>
      { data := ls.flatMap (Line.bytes timing), generator := g }) := by
  induction parts with
  | nil => rfl
  | cons part parts ih =>
    obtain ⟨ls, g⟩ := part
    rw [encodeTracks, encodeLines_of_valid (h (ls, g) (by simp)),
      ih (fun d hd => h d (by simp [hd]))]
    rfl

end Encoding

section Load

variable {text : String} {header : Header} {settings : Settings} {body : List Line}

/-- What is wrong with the layout is reported, and nothing after it is looked at. -/
theorem load_refused_iff {e : Error} (hs : sift {} (lines text.toList) = .ok (header, body))
    (hset : header.settings = .ok settings) (hg : ∀ gs ts, e ≠ .generatorCount gs ts)
    (ht : ∀ number word fault, e ≠ .token number word fault) :
    load text = .error e ↔ Layout.arrange body = .error e := by
  simp only [load, hs, hset]
  cases ha : Layout.arrange body with
  | error d => simp
  | ok rows =>
    refine ⟨?_, fun h => nomatch h⟩
    intro hl
    dsimp only at hl
    split at hl
    · cases hl
      exact absurd rfl (hg _ _)
    · obtain ⟨number, word, fault, rfl⟩ := encodeTracks_error (map_error hl)
      exact absurd rfl (ht number word fault)

theorem load_of_columns {bs : List (List Line)} {n : Nat}
    (hs : sift {} (lines text.toList) = .ok (header, body)) (hset : header.settings = .ok settings)
    (ha : Layout.arrange body = .ok ((List.range n).map (column bs)))
    (hn : settings.generators.length = n)
    (hv : ∀ line ∈ bs.flatten, line.Valid settings.timing) :
    load text = .ok
      { samplesPerTick := settings.samplesPerTick
        attenuation := attenuationFor n
        tracks := settings.generators.mapIdx fun k g =>
          { data := (column bs k).flatMap (Line.bytes settings.timing), generator := g } } := by
  have hp : ∀ part ∈ ((List.range n).map (column bs)).zip settings.generators,
      ∀ line ∈ part.1, line.Valid settings.timing := by
    intro part hm line hl
    obtain ⟨k, _, hk⟩ := List.mem_map.mp (List.of_mem_zip hm).1
    rw [← hk] at hl
    exact hv line (mem_flatten_of_mem_column hl)
  simp only [load, hs, hset, ha, List.length_map, List.length_range, hn, ne_eq, not_true, if_false,
    encodeTracks_of_valid hp, Except.map, Except.ok.injEq, Song.mk.injEq, true_and]
  apply List.ext_getElem <;> simp [hn]

end Load

/-- Lines are numbered in the order of the text, so the first of some has the least number. -/
theorem lines_ordered (text : List Char) :
    (lines text).Pairwise (fun a b => a.number < b.number) := by
  apply List.pairwise_iff_getElem.mpr
  intro i j _ _ hij
  simpa [lines] using hij

theorem excess_sublist_flatten (n : Nat) (bs : List (List Line)) :
    (excess n bs).Sublist bs.flatten := by
  induction bs with
  | nil => exact List.Sublist.refl []
  | cons b bs ih => exact (List.drop_sublist n b).append ih

/-- Of the lines that are too many, the first has the least number. -/
theorem excess_head_least {text : List Char} {first : List Line} {later : List (List Line)}
    {line : Line} (hb : blocks ((lines text).filter Line.inBody) = first :: later) {n : Nat}
    (hx : (excess n later).head? = some line) :
    ∀ other ∈ excess n later, line.number ≤ other.number := by
  have hf : first ++ later.flatten =
      ((lines text).filter Line.inBody).filter (fun line => !line.text.isEmpty) := by
    rw [← flatten_blocks, hb, List.flatten_cons]
  have hl : later.flatten.Sublist ((lines text).filter Line.inBody) :=
    (List.sublist_append_right first _).trans (hf ▸ List.filter_sublist)
  have he : (excess n later).Sublist (lines text) :=
    (excess_sublist_flatten n later).trans (hl.trans List.filter_sublist)
  have ho := (lines_ordered text).sublist he
  obtain ⟨rest, hr⟩ := List.head?_eq_some_iff.mp hx
  rw [hr] at ho ⊢
  intro other hm
  rcases List.mem_cons.mp hm with rfl | hm
  · exact Nat.le_refl _
  · exact Nat.le_of_lt (List.rel_of_pairwise_cons ho hm)

/-- A score whose header lines can all be read and are complete has its layout decided by the blocks
of its body. Without a block there are no tracks. A block that is longer than the first is refused
at the first line of the text that is too many. Otherwise each line that is not blank is in one
column of the blocks, and with a generator for each line of the first block and tokens that are all
valid, the tracks are the bytes of the columns. -/
theorem load_deals_columns {text : String} {header : Header} {settings : Settings}
    (hread : ((lines text.toList).filterMap Line.entry?).foldlM Header.read {} = .ok header)
    (hset : header.settings = .ok settings) :
    let body := (lines text.toList).filter Line.inBody
    (load text = .error .noTracks ↔ blocks body = []) ∧
    ∀ first later, blocks body = first :: later →
      ((∃ number expected found, load text = .error (.blockShape number expected found)) ↔
        ∃ b ∈ later, first.length < b.length) ∧
      (∀ line, (excess first.length later).head? = some line →
        load text = .error (.blockShape line.number first.length (first.length + 1)) ∧
        ∀ other ∈ excess first.length later, line.number ≤ other.number) ∧
      ((∀ b ∈ later, b.length ≤ first.length) →
        ((List.range first.length).flatMap (column (first :: later))).Perm
          (body.filter (fun line => !line.text.isEmpty)) ∧
        (settings.generators.length = first.length →
          (∀ line ∈ body, line.Valid settings.timing) →
          load text = .ok
            { samplesPerTick := settings.samplesPerTick
              attenuation := attenuationFor first.length
              tracks := settings.generators.mapIdx fun k g =>
                { data := (column (first :: later) k).flatMap (Line.bytes settings.timing)
                  generator := g } })) := by
  intro body
  have hs : sift {} (lines text.toList) = .ok (header, body) := sift_of_read hread
  have ha : Layout.arrange body = deal (blocks body) := Layout.arrange_eq_deal body
  refine ⟨?_, ?_⟩
  · rw [load_refused_iff (e := .noTracks) hs hset nofun nofun, ha, deal_eq_noTracks_iff]
  · intro first later hb
    rw [hb] at ha
    have hshape (number expected found : Nat) :
        load text = .error (.blockShape number expected found) ↔
          deal (first :: later) = .error (.blockShape number expected found) := by
      rw [load_refused_iff (e := .blockShape number expected found) hs hset nofun nofun, ha]
    refine ⟨?_, ?_, ?_⟩
    · simp only [hshape, deal_blockShape_iff]
    · intro line hx
      exact ⟨(hshape _ _ _).mpr (deal_of_excess hx), excess_head_least hb hx⟩
    · intro hn
      refine ⟨?_, ?_⟩
      · rw [← flatten_blocks, hb]
        apply flatMap_column_perm
        simpa using hn
      · intro hg hv
        apply load_of_columns hs hset (ha.trans (deal_of_fits hn)) hg
        intro line hl
        rw [← hb, flatten_blocks] at hl
        exact hv line (List.mem_filter.mp hl).1

/-- A comment and a header line inside a block, blank lines in a row, a block that is shorter than
the first, one that is longer, and a score of header lines only. -/
theorem load_deals_columns_short_block :
    let text :=
      "> samps_per_tick: 2\n> generators: saw, tri\n\n\nc0-1\n# low\n> ticks_per_whole: 8\n/-2\n\n \nd0-3 /-1\n\n> cut_ticks: 1\ne0-4\nf0-5"
    let long :=
      "> samps_per_tick: 2\n> generators: saw\n> ticks_per_whole: 8\n> cut_ticks: 1\nc0-1\n\nd0-1\n# high\n?\ne0-1"
    let bare :=
      "> samps_per_tick: 2\n> generators: saw\n> ticks_per_whole: 8\n\n# none\n> cut_ticks: 1"
    load text = .ok
        { samplesPerTick := 2, attenuation := 1
          tracks := [{ data := [0, 1, 2, 3, 129, 4, 4], generator := .saw },
            { data := [130, 5, 5], generator := .triangle }] } ∧
      load long = .error (.blockShape 9 1 2) ∧ load bare = .error .noTracks := by
  intro text long bare
  let header (gs : List Generator) : Header :=
    { samplesPerTick := some 2, generators := some gs, ticksPerWhole := some 8, cutTicks := some 1 }
  have hset (gs : List Generator) : (header gs).settings = .ok ⟨2, gs, ⟨8, 1⟩⟩ := rfl
  refine ⟨?_, ?_, ?_⟩
  · obtain ⟨hread, hb, hv⟩ :
        ((lines text.toList).filterMap Line.entry?).foldlM Header.read {} =
          .ok (header [.saw, .triangle]) ∧
        blocks ((lines text.toList).filter Line.inBody) =
          [[⟨5, "c0-1".toList⟩, ⟨8, "/-2".toList⟩], [⟨11, "d0-3 /-1".toList⟩],
            [⟨14, "e0-4".toList⟩, ⟨15, "f0-5".toList⟩]] ∧
        ∀ line ∈ (lines text.toList).filter Line.inBody, line.Valid ⟨8, 1⟩ := by
      decide +kernel
    have hall := (load_deals_columns hread (hset _)).2 _ _ hb
    exact (hall.2.2 (by simp)).2 rfl hv
  · obtain ⟨hread, hb⟩ :
        ((lines long.toList).filterMap Line.entry?).foldlM Header.read {} = .ok (header [.saw]) ∧
        blocks ((lines long.toList).filter Line.inBody) =
          [[⟨5, "c0-1".toList⟩], [⟨7, "d0-1".toList⟩, ⟨9, "?".toList⟩, ⟨10, "e0-1".toList⟩]] := by
      decide +kernel
    have hall := (load_deals_columns hread (hset _)).2 _ _ hb
    exact (hall.2.1 _ rfl).1
  · obtain ⟨hread, hb⟩ :
        ((lines bare.toList).filterMap Line.entry?).foldlM Header.read {} = .ok (header [.saw]) ∧
        blocks ((lines bare.toList).filter Line.inBody) = [] := by
      decide +kernel
    exact (load_deals_columns hread (hset _)).1.mpr hb

end Polysynth.Score
