import Polysynth.Disk
import Polysynth.Proofs.MixableSong

namespace Polysynth

namespace Wav

def little (bytes : List UInt8) : Nat := bytes.foldr (fun b n => b.toNat + 256 * n) 0

def number (bytes : List UInt8) (offset n : Nat) : Nat := little ((bytes.drop offset).take n)

def name (bytes : List UInt8) (offset : Nat) : String :=
  String.ofList (((bytes.drop offset).take 4).map (fun b => Char.ofNat b.toNat))

structure Recording where
  format : Nat
  channels : Nat
  rate : Nat
  byteRate : Nat
  blockAlign : Nat
  bits : Nat
  samples : List UInt8
  deriving DecidableEq

/-- The bytes are one chunk that is as long as it says, with 16 bytes of format and then the data.
One byte follows data of odd size. -/
def framed (bytes : List UInt8) : Bool :=
  let size := number bytes 40 4
  name bytes 0 == "RIFF" && number bytes 4 4 + 8 == bytes.length && name bytes 8 == "WAVE" &&
    name bytes 12 == "fmt " && number bytes 16 4 == 16 && name bytes 36 == "data" &&
    44 + size + size % 2 == bytes.length

def read? (bytes : List UInt8) : Option Recording :=
  if framed bytes then
    some
      { format := number bytes 20 2
        channels := number bytes 22 2
        rate := number bytes 24 4
        byteRate := number bytes 28 4
        blockAlign := number bytes 32 2
        bits := number bytes 34 2
        samples := (bytes.drop 44).take (number bytes 40 4) }
  else none

/-- The most samples whose sizes all fit 32 bits. -/
def mostSamples : Nat := 0x100000000 - 38

theorem little_word (n : UInt16) : little (word n) = n.toNat := by
  have hb : little (word n) = n.toNat % 256 + 256 * (n.toNat / 256 % 256) := by
    simp [little, word, Nat.shiftRight_eq_div_pow]
  have hn := n.toNat_lt
  omega

theorem little_long (n : UInt32) : little (long n) = n.toNat := by
  have hb : little (long n) = n.toNat % 256 + 256 * (n.toNat / 256 % 256 +
      256 * (n.toNat / 65536 % 256 + 256 * (n.toNat / 16777216 % 256))) := by
    simp [little, long, Nat.shiftRight_eq_div_pow]
  have hn := n.toNat_lt
  omega

section Header

variable (size rate : UInt32) (data : List UInt8)

/-- The header field by field. -/
theorem header_append : header size rate ++ data =
    [82, 73, 70, 70] ++ (long (36 + (size + size % 2)) ++ ([87, 65, 86, 69] ++
      ([102, 109, 116, 32] ++ (long 16 ++ (word 1 ++ (word 1 ++ (long rate ++ (long rate ++
        (word 1 ++ (word 8 ++ ([100, 97, 116, 97] ++ (long size ++ data)))))))))))) := by
  have hriff : tag "RIFF" = [82, 73, 70, 70] := by decide
  have hwave : tag "WAVE" = [87, 65, 86, 69] := by decide
  have hformat : tag "fmt " = [102, 109, 116, 32] := by decide
  have hdata : tag "data" = [100, 97, 116, 97] := by decide
  have hrate : rate * blockAlign.toUInt32 = rate := UInt32.mul_one rate
  simp only [header, hriff, hwave, hformat, hdata, hrate, List.append_assoc]
  rfl

theorem length_header : (header size rate).length = 44 := by
  rw [← List.append_nil (header size rate), header_append]
  rfl

theorem names_header :
    name (header size rate ++ data) 0 = "RIFF" ∧ name (header size rate ++ data) 8 = "WAVE" ∧
      name (header size rate ++ data) 12 = "fmt " ∧ name (header size rate ++ data) 36 = "data" := by
  rw [header_append]
  exact ⟨rfl, rfl, rfl, rfl⟩

theorem riffSize_header :
    number (header size rate ++ data) 4 4 = (36 + (size + size % 2)).toNat := by
  rw [header_append]
  exact little_long (36 + (size + size % 2))

theorem dataSize_header : number (header size rate ++ data) 40 4 = size.toNat := by
  rw [header_append]
  exact little_long size

theorem format_header :
    number (header size rate ++ data) 16 4 = 16 ∧ number (header size rate ++ data) 20 2 = 1 ∧
      number (header size rate ++ data) 22 2 = 1 ∧ number (header size rate ++ data) 32 2 = 1 ∧
      number (header size rate ++ data) 34 2 = 8 := by
  rw [header_append]
  exact ⟨little_long 16, little_word 1, little_word 1, little_word 1, little_word 8⟩

theorem rates_header :
    number (header size rate ++ data) 24 4 = rate.toNat ∧
      number (header size rate ++ data) 28 4 = rate.toNat := by
  rw [header_append]
  exact ⟨little_long rate, little_long rate⟩

theorem drop_header : (header size rate ++ data).drop 44 = data := by
  rw [header_append]
  rfl

end Header

def padding (size : Nat) : List UInt8 := if size % 2 = 1 then [0] else []

theorem length_padding (size : Nat) : (padding size).length = size % 2 := by
  unfold padding
  split
  · rename_i h
    exact h.symm
  · rename_i h
    exact (Nat.mod_two_ne_one.mp h).symm

section Image

variable (samples : Array UInt8) (rate : UInt32)

theorem toList_image : (image samples rate).toList =
    header (UInt32.ofNat samples.size) rate ++ (samples.toList ++ padding samples.size) := by
  unfold image padding
  split <;> simp

theorem size_image : (image samples rate).size = 44 + samples.size + samples.size % 2 := by
  rw [← Array.length_toList, toList_image, List.length_append, List.length_append, length_header,
    length_padding, Array.length_toList, Nat.add_assoc]

/-- The parts that are written one after the other make up the image. -/
theorem flatten_chunks : (chunks samples rate).flatMap Array.toList = (image samples rate).toList := by
  rw [toList_image]
  unfold chunks padding
  split <;> simp

/-- A header counts the samples in 32 bits. -/
theorem dataSize_image_mod :
    number (image samples rate).toList 40 4 = samples.size % 0x100000000 := by
  rw [toList_image, dataSize_header]
  exact UInt32.toNat_ofNat'

/-- The size in the header wraps at 32 bits. -/
theorem riffSize_image_mod :
    number (image samples rate).toList 4 4 = ((image samples rate).size - 8) % 0x100000000 := by
  have hn : (UInt32.ofNat samples.size).toNat = samples.size % 4294967296 := UInt32.toNat_ofNat'
  rw [size_image, toList_image, riffSize_header, UInt32.toNat_add, UInt32.toNat_add,
    UInt32.toNat_mod, hn]
  change (36 + (samples.size % 4294967296 + samples.size % 4294967296 % 2) % 4294967296) %
    4294967296 = _
  omega

variable {samples}

/-- No size in the header wraps. -/
theorem riffSize_image (h : samples.size ≤ mostSamples) :
    number (image samples rate).toList 4 4 + 8 = (image samples rate).size := by
  have hn : samples.size ≤ 4294967258 := h
  rw [riffSize_image_mod, size_image]
  omega

theorem dataSize_image (h : samples.size ≤ mostSamples) :
    number (image samples rate).toList 40 4 = samples.size := by
  rw [dataSize_image_mod]
  exact Nat.mod_eq_of_lt (Nat.lt_of_le_of_lt h (by decide))

theorem framed_image (h : samples.size ≤ mostSamples) :
    framed (image samples rate).toList = true := by
  have hd := dataSize_image rate h
  have hr := riffSize_image rate h
  have hl := size_image samples rate
  obtain ⟨h0, h8, h12, h36⟩ := names_header (UInt32.ofNat samples.size) rate
    (samples.toList ++ padding samples.size)
  obtain ⟨h16, _⟩ := format_header (UInt32.ofNat samples.size) rate
    (samples.toList ++ padding samples.size)
  rw [← toList_image] at h0 h8 h12 h36 h16
  simp [framed, h0, h8, h12, h36, h16, hd, hr, hl]

/-- Every image is read as the samples and the rate it was made from. -/
theorem read?_image (h : samples.size ≤ mostSamples) :
    read? (image samples rate).toList = some
      { format := 1, channels := 1, rate := rate.toNat, byteRate := rate.toNat, blockAlign := 1
        bits := 8, samples := samples.toList } := by
  have hd := dataSize_image rate h
  rw [read?, if_pos (framed_image rate h), hd, toList_image]
  obtain ⟨_, h20, h22, h32, h34⟩ := format_header (UInt32.ofNat samples.size) rate
    (samples.toList ++ padding samples.size)
  obtain ⟨h24, h28⟩ := rates_header (UInt32.ofNat samples.size) rate
    (samples.toList ++ padding samples.size)
  rw [h20, h22, h24, h28, h32, h34, drop_header, List.take_left' Array.length_toList]

/-- A file tells the samples and the rate it was made from. -/
theorem image_injective {samples' : Array UInt8} {rate' : UInt32} (h : samples.size ≤ mostSamples)
    (h' : samples'.size ≤ mostSamples) (he : image samples rate = image samples' rate') :
    samples = samples' ∧ rate = rate' := by
  have hr := read?_image rate h
  rw [he, read?_image rate' h'] at hr
  have hs := congrArg Recording.samples (Option.some.inj hr)
  have ht := congrArg Recording.rate (Option.some.inj hr)
  exact ⟨(Array.toList_inj.mp hs).symm, (UInt32.toNat_inj.mp ht).symm⟩

end Image

end Wav

namespace Sink

variable {s : Sink} {bytes : Array UInt8}

theorem write_fitting (h : bytes.size ≤ s.room) :
    s.write bytes = (true, { room := s.room - bytes.size, written := s.written ++ bytes }) := by
  have ht : bytes.take s.room = bytes := by
    rw [Array.take_eq_extract, Array.extract_eq_self_of_le h]
  simp [write, ht, h]

/-- A sink without enough room takes what it has room for, and says so. -/
theorem write_exceeding (h : s.room < bytes.size) :
    (s.write bytes).1 = false ∧
      (s.write bytes).2.written.toList = s.written.toList ++ bytes.toList.take s.room := by
  simp [write, h]

/-- Whatever the chunks, a writer has taken the start of them that its room allows, and is content
exactly if that is all. -/
theorem writeAll_takes (s : Sink) (chunks : List (Array UInt8)) :
    let whole := chunks.flatMap Array.toList
    (s.writeAll chunks).2.written.toList = s.written.toList ++ whole.take s.room ∧
      ((s.writeAll chunks).1 = true ↔ whole.length ≤ s.room) := by
  induction chunks generalizing s with
  | nil => simp [writeAll]
  | cons bytes more ih =>
    simp only [writeAll, List.flatMap_cons]
    rcases Nat.lt_or_ge s.room bytes.size with hx | hf
    · obtain ⟨hd, hw⟩ := write_exceeding hx
      have hl : s.room ≤ bytes.toList.length := Nat.le_of_lt hx
      generalize s.write bytes = result at hd hw
      obtain ⟨done, sink⟩ := result
      obtain rfl : done = false := hd
      have hn : ¬ (bytes.toList ++ more.flatMap Array.toList).length ≤ s.room := by
        rw [List.length_append, Array.length_toList]
        omega
      rw [List.take_append_of_le_length hl]
      exact ⟨hw, iff_of_false Bool.false_ne_true hn⟩
    · rw [write_fitting hf]
      obtain ⟨hw, hd⟩ := ih { room := s.room - bytes.size, written := s.written ++ bytes }
      have hl : bytes.toList.length = bytes.size := Array.length_toList
      have ht : bytes.toList.take s.room = bytes.toList :=
        List.take_of_length_le (Nat.le_trans (Nat.le_of_eq hl) hf)
      refine ⟨?_, ?_⟩
      · rw [hw, List.take_append, ht, hl, Array.toList_append, List.append_assoc]
      · rw [hd, List.length_append, hl]
        exact Nat.le_sub_iff_add_le' hf

end Sink

theorem Wav.write_takes (samples : Array UInt8) (rate : UInt32) (room : Nat) :
    let result := Wav.write samples rate { room := room }
    result.2.written.toList =
        (Wav.image samples rate).toList.take (min room (Wav.image samples rate).size) ∧
      (result.1 = true ↔ (Wav.image samples rate).size ≤ room) := by
  obtain ⟨hw, hd⟩ := ({ room := room } : Sink).writeAll_takes (Wav.chunks samples rate)
  rw [Wav.flatten_chunks, Array.length_toList] at hd
  rw [Wav.flatten_chunks, List.take_eq_take_min, Array.length_toList] at hw
  exact ⟨hw, hd⟩

namespace Disk

variable {d d' : Disk} {place target : Place} {node : Node} {path : String} {contents : ByteArray}

theorem node?_put (d : Disk) (place : Place) (node : Node) :
    (d.put place node).node? place = some node := by
  simp [put, node?]

theorem node?_put_of_ne {other : Place} (d : Disk) (node : Node) (h : other ≠ place) :
    (d.put place node).node? other = d.node? other := by
  have hb : (other == place) = false := beq_false_of_ne h
  simp only [put, node?, List.lookup_cons, hb]
  induction d.nodes with
  | nil => rfl
  | cons n nodes ih =>
    obtain ⟨key, value⟩ := n
    by_cases hn : key = place
    · rw [List.filter_cons_of_neg (by simp [hn]), ih, List.lookup_cons, hn, hb]
    · rw [List.filter_cons_of_pos (by simp [hn]), List.lookup_cons, List.lookup_cons, ih]

/-- A step is taken from a folder. -/
theorem folder_of_step {name : String} (h : d.step place name = .ok target) :
    d.node? place = some .folder := by
  unfold step at h
  split at h
  · cases h
  · rename_i hf
    exact hf
  · cases h

/-- What stands where there was no folder is in the way of no walk. -/
theorem walk_put {names : List String} {start : Place} (hp : d.node? place ≠ some .folder)
    (h : d.walk start names = .ok target) : (d.put place node).walk start names = .ok target := by
  induction names generalizing start with
  | nil => exact h
  | cons name names ih =>
    unfold walk at h ⊢
    cases hs : d.step start name with
    | error e => rw [hs] at h; cases h
    | ok next =>
      rw [hs] at h
      have hne : start ≠ place := by
        rintro rfl
        exact hp (folder_of_step hs)
      have hs' : (d.put place node).step start name = .ok next := by
        rw [← hs, step, step, node?_put_of_ne d node hne]
      rw [hs']
      exact ih h

theorem walk_append (d : Disk) (start : Place) (names more : List String) :
    d.walk start (names ++ more) = (d.walk start names).bind (fun place => d.walk place more) := by
  induction names generalizing start with
  | nil => rfl
  | cons name names ih =>
    simp only [List.cons_append, walk]
    cases d.step start name with
    | error e => rfl
    | ok next => exact ih next

/-- A walk that ends by staying in place ends at a folder. -/
theorem folder_of_walk {names : List String} {start : Place}
    (h : d.walk start (names ++ ["."]) = .ok target) : d.node? target = some .folder := by
  rw [walk_append] at h
  cases hw : d.walk start names with
  | error e => rw [hw] at h; cases h
  | ok last =>
    rw [hw] at h
    cases hs : d.step last "." with
    | error e => simp [Except.bind, walk, hs] at h
    | ok next =>
      have hf := folder_of_step hs
      have hl : last = next := by simpa [step, hf] using hs
      have ht : next = target := by simpa [Except.bind, walk, hs] using h
      rw [← ht, ← hl]
      exact hf

/-- Writing where there is no folder leads no path astray. -/
theorem follow_put {names : List String} (hp : d.node? place ≠ some .folder)
    (h : d.follow path names = .ok target) : (d.put place node).follow path names = .ok target := by
  unfold follow at h ⊢
  split
  · rename_i hs
    rw [if_pos hs] at h
    cases h
  · rename_i hs
    rw [if_neg hs] at h
    exact walk_put hp h

/-- What may be written to is no folder, and is read under the same path. -/
theorem source_of_target (h : d.target path = .ok place) (hp : d.node? place ≠ some .folder) :
    d.source path = .ok place := by
  unfold target at h
  cases hf : Path.isFolder path with
  | true =>
    rw [hf, if_pos rfl, follow] at h
    split at h
    · cases h
    · exact absurd (folder_of_walk h) hp
  | false =>
    rw [hf, if_neg Bool.false_ne_true] at h
    rw [source, hf, if_neg Bool.false_ne_true, List.append_nil]
    exact h

/-- What was written is read back, except from where nothing is kept. -/
theorem read_of_write (h : d.write path contents = .ok d') :
    (∃ place, d.target path = .ok place ∧ d.node? place = some .null) ∨
      d'.read path = .ok contents := by
  unfold write at h
  cases ht : d.target path with
  | error e => rw [ht] at h; cases h
  | ok place =>
    rw [ht] at h
    dsimp only at h
    split at h
    · cases h
    · rename_i hn
      exact .inl ⟨place, rfl, hn⟩
    · rename_i hf hn
      obtain rfl := Except.ok.inj h
      have hs : (d.put place (.file contents)).source path = .ok place :=
        follow_put hf (source_of_target ht hf)
      refine .inr ?_
      rw [read, hs]
      dsimp only
      rw [node?_put]

theorem run_write (path : String) (chunks : List (Array UInt8)) (d : Disk) :
    (fileSystem.write path chunks).run d =
      match d.write path (join chunks) with
      | .error e => (.error e, d)
      | .ok d' => (.ok (), d') := by
  have hr : (fileSystem.write path chunks).run d =
      StateT.run (match d.write path (join chunks) with
        | .error e => (return .error e : StateM Disk (Except FileError Unit))
        | .ok d' => do
          set d'
          return .ok ()) d := rfl
  rw [hr]
  cases d.write path (join chunks) <;> rfl

end Disk

namespace Session

variable {s : Session}

theorem mixer_of_render {max : Nat} {samples : Array UInt8} {notices : List Notice}
    (h : s.render max = some (.ok samples, notices)) :
    ∃ mix, mixer s.song = .ok mix ∧ mix.render max = samples ∧ notices = [.rendered samples.size] := by
  cases hm : mixer s.song with
  | error e =>
    rw [render, hm] at h
    cases h
  | ok mix =>
    rw [render_eq hm] at h
    split at h
    · cases h
      exact ⟨mix, rfl, rfl, rfl⟩
    · cases h

theorem renderWav_of_render {seconds : UInt32} {samples : Array UInt8} {notices : List Notice}
    (h : s.render (sampleRate * seconds.toNat) = some (.ok samples, notices)) :
    s.renderWav seconds = some (.ok (Wav.image samples (UInt32.ofNat sampleRate)), notices) := by
  obtain ⟨mix, hm, rfl, rfl⟩ := mixer_of_render h
  exact renderWav_eq hm seconds

theorem flatten_chunks (samples : Array UInt8) (rate : UInt32) :
    ((Wav.chunks samples rate).map Array.toList).flatten = (Wav.image samples rate).toList := by
  unfold Wav.chunks Wav.image
  split <;> simp

theorem join_chunks (samples : Array UInt8) (rate : UInt32) :
    Disk.join (Wav.chunks samples rate) = ⟨Wav.image samples rate⟩ := by
  unfold Disk.join Wav.chunks Wav.image
  split <;> simp

theorem exportAnswer_ok {path : String} {samples : Array UInt8} {written : Except FileError Unit}
    {count : Nat} (h : (exportAnswer path samples written).1 = .ok count) :
    written = .ok () ∧ count = samples.size := by
  cases written with
  | error e => cases h
  | ok _ => exact ⟨rfl, (Except.ok.inj h).symm⟩

/-- On a disk, an export writes the image that rendering gives, and ends as that writing does. -/
theorem run_exportWav {mix : Mixer} (hm : mixer s.song = .ok mix) (seconds : UInt32)
    (path : String) (d : Disk) :
    let samples := mix.render (sampleRate * seconds.toNat)
    (s.exportWav Disk.fileSystem path seconds).run d =
      match d.write path ⟨Wav.image samples (UInt32.ofNat sampleRate)⟩ with
      | .error e => (some (exportAnswer path samples (.error e)), d)
      | .ok d' => (some (exportAnswer path samples (.ok ())), d') := by
  intro samples
  rw [exportWav_eq_write hm, StateT.run_bind, Disk.run_write, join_chunks]
  cases d.write path ⟨Wav.image samples (UInt32.ofNat sampleRate)⟩ <;> rfl

end Session

/-- An image of as many samples as 32-bit sizes allow has even length, and its first size is that
length without the eight bytes before it. Read as a WAV file it gives the rate and the samples it
was made from, so no two images are the same. A writer with room for some bytes takes exactly those
of the image, and is content exactly if they are all. Whatever the files are kept in, an export
writes one file, the image that rendering gives, and tells the size of its data if that succeeds. On
a disk the image is read back then, unless nothing is kept at its path. -/
theorem wav_files_are_truthful :
    (∀ (samples : Array UInt8) (rate : UInt32), samples.size ≤ Wav.mostSamples →
      let image := Wav.image samples rate
      image.size % 2 = 0 ∧ Wav.number image.toList 4 4 + 8 = image.size ∧
        Wav.read? image.toList = some
          { format := 1, channels := 1, rate := rate.toNat, byteRate := rate.toNat
            blockAlign := 1, bits := 8, samples := samples.toList } ∧
        (∀ (samples' : Array UInt8) (rate' : UInt32), samples'.size ≤ Wav.mostSamples →
          Wav.image samples' rate' = image → samples' = samples ∧ rate' = rate) ∧
        ∀ room : Nat,
          let result := Wav.write samples rate { room := room }
          result.2.written.toList = image.toList.take (min room image.size) ∧
            (result.1 = true ↔ image.size ≤ room)) ∧
    ∀ (s : Session) (seconds : UInt32) (samples : Array UInt8) (notices : List Notice),
      s.render (sampleRate * seconds.toNat) = some (.ok samples, notices) →
      samples.size ≤ Wav.mostSamples →
        ∃ image, s.renderWav seconds = some (.ok image, notices) ∧
          Wav.number image.toList 40 4 = samples.size ∧
          (∀ (m : Type → Type) [Monad m] (fs : FileSystem m) (path : String), ∃ chunks,
            (chunks.map Array.toList).flatten = image.toList ∧
            s.exportWav fs path seconds = (do
              return some (Session.exportAnswer path samples (← fs.write path chunks)))) ∧
          (∀ path written count, (Session.exportAnswer path samples written).1 = .ok count →
            written = .ok () ∧ count = samples.size) ∧
          ∀ (path : String) (d : Disk),
            let run := (s.exportWav Disk.fileSystem path seconds).run d
            ∀ count told, run.1 = some (.ok count, told) →
              count = samples.size ∧ d.write path ⟨image⟩ = .ok run.2 ∧
              ((∃ place, d.target path = .ok place ∧ d.node? place = some .null) ∨
                run.2.read path = .ok ⟨image⟩) := by
  refine ⟨?_, ?_⟩
  · intro samples rate h image
    refine ⟨?_, Wav.riffSize_image rate h, Wav.read?_image rate h, ?_, ?_⟩
    · rw [Wav.size_image]
      omega
    · intro samples' rate' h' he
      exact Wav.image_injective rate' h' h he
    · intro room
      exact Wav.write_takes samples rate room
  · intro s seconds samples notices h hn
    obtain ⟨mix, hm, rfl, _⟩ := Session.mixer_of_render h
    refine ⟨_, Session.renderWav_of_render h, Wav.dataSize_image _ hn, ?_, ?_, ?_⟩
    · intro m _ fs path
      exact ⟨_, Session.flatten_chunks _ _, Session.exportWav_eq_write hm fs path seconds⟩
    · intro path written count
      exact Session.exportAnswer_ok
    · intro path d run count told hc
      have hrun : run = _ := Session.run_exportWav hm seconds path d
      cases hw : d.write path ⟨Wav.image (mix.render (sampleRate * seconds.toNat))
          (UInt32.ofNat sampleRate)⟩ with
      | error e =>
        rw [hrun, hw] at hc
        cases hc
      | ok d' =>
        rw [hw] at hrun
        rw [hrun] at hc ⊢
        cases hc
        exact ⟨rfl, rfl, Disk.read_of_write hw⟩

/-- Three samples, which take a byte more, on writers that lack one byte and two; and a song of
three samples that is exported to a disk. -/
theorem wav_files_are_truthful_odd :
    let samples : Array UInt8 := #[9, 8, 7]
    let s : Session :=
      { song := { tracks := [{ data := [60, 3], generator := .saw, looping := false }] } }
    let d := Disk.bare ["home"]
    Wav.number (Wav.image samples 11025).toList 4 4 + 8 = 48 ∧
      (Wav.write samples 11025 { room := 46 }).2.written.toList =
        (Wav.image samples 11025).toList.take 46 ∧
      ¬ (Wav.write samples 11025 { room := 47 }).1 = true ∧
      ∃ image, s.renderWav 1 = some (.ok image, [.rendered 3]) ∧
        Wav.number image.toList 40 4 = 3 ∧
        ((s.exportWav Disk.fileSystem "out.wav" 1).run d).1 =
          some (.ok 3, [.rendered 3, .exported 3 "out.wav"]) ∧
        ((s.exportWav Disk.fileSystem "out.wav" 1).run d).2.read "out.wav" = .ok ⟨image⟩ := by
  intro samples s d
  obtain ⟨hi, he⟩ := wav_files_are_truthful
  obtain ⟨_, hsize, _, _, hw⟩ := hi samples 11025 (by decide)
  have hl : (Wav.image samples 11025).size = 48 := Wav.size_image #[9, 8, 7] 11025
  rw [hl] at hsize
  have hm : Session.mixer s.song = .ok (Mixer.assembled 8 .standard s.song) :=
    Mixer.ofSong_of_fits (by decide) (by decide) (by decide) (by decide)
  have hs : (Mixer.assembled 8 .standard s.song).render (sampleRate * (1 : UInt32).toNat) =
      #[0, 12, 24] := by
    decide +kernel
  have hr : s.render (sampleRate * (1 : UInt32).toNat) = some (.ok #[0, 12, 24], [.rendered 3]) := by
    rw [Session.render_seconds hm, hs]
    rfl
  obtain ⟨image, hrw, hc, _, _, hx⟩ := he s 1 _ _ hr (by decide)
  have ht : d.target "out.wav" = .ok ["home", "out.wav"] := by with_unfolding_all rfl
  have hn : d.node? ["home", "out.wav"] = none := by with_unfolding_all rfl
  have hok : ((s.exportWav Disk.fileSystem "out.wav" 1).run d).1 =
      some (.ok 3, [.rendered 3, .exported 3 "out.wav"]) := by
    rw [Session.run_exportWav hm, hs, Disk.write, ht]
    dsimp only
    rw [hn]
    rfl
  refine ⟨hsize, (hw 46).1.trans (by rw [hl]; rfl), ?_, image, hrw, hc, hok, ?_⟩
  · intro hd
    have hle := (hw 47).2.mp hd
    rw [hl] at hle
    exact absurd hle (by decide)
  · rcases (hx "out.wav" d 3 _ hok).2.2 with ⟨place, hp, hnull⟩ | hread
    · rw [ht] at hp
      obtain rfl := Except.ok.inj hp
      rw [hn] at hnull
      cases hnull
    · exact hread

end Polysynth
