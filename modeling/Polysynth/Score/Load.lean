import Polysynth.Mixer
import Polysynth.Score.Header

namespace Polysynth.Score

inductive Error where
  | header (line : Nat) (fault : HeaderFault)
  | missing (key : Key)
  | noTracks
  /-- A block with more lines than the first block has. -/
  | blockShape (line expected found : Nat)
  | generatorCount (generators tracks : Nat)
  | token (line : Nat) (text : String) (fault : TokenFault)
  deriving DecidableEq

def HeaderFault.message : HeaderFault → String
  | malformed text => s!"malformed header `{text}`"
  | unknownKey key => s!"unknown key `{key}`"
  | invalidValue key value => s!"invalid value `{value}` for `{key.name}`"
  | unknownGenerator name => s!"unknown generator `{name}`"

def TokenFault.message (text : String) : TokenFault → String
  | malformed => s!"invalid token `{text}`"
  | badLength => s!"invalid duration in `{text}`"
  | lengthOutOfRange length => s!"length {length} out of range for `{text}`"
  | pitchOutOfRange pitch => s!"pitch {pitch} out of range in `{text}`"
  | zeroLength => s!"zero-length event `{text}`"

def Error.message : Error → String
  | header line fault => s!"line {line}: {fault.message}"
  | missing key => s!"missing metadata `{key.name}`"
  | noTracks => "score has no tracks"
  | blockShape line expected found =>
    s!"line {line}: block has {found} lines but the score has {expected} tracks"
  | generatorCount generators tracks => s!"{generators} generators for {tracks} tracks"
  | token line text fault => s!"line {line}: {fault.message text}"

/-- A numbered line of the body, without the blanks around it. -/
structure Line where
  number : Nat
  text : List Char
  deriving DecidableEq

/-- The lines given to each track so far, and the place of the next line. The first block says how
many tracks there are. -/
structure Layout where
  tracks : List (List Line) := []
  /-- No block has ended yet. -/
  opening : Bool := true
  /-- The number of lines since the last blank one. -/
  row : Nat := 0
  deriving DecidableEq

namespace Layout

def add (l : Layout) (line : Line) : Except Error Layout :=
  if line.text.isEmpty then .ok { l with opening := l.opening && l.row == 0, row := 0 }
  else if l.opening then .ok { l with tracks := l.tracks ++ [[line]], row := l.row + 1 }
  else if l.row < l.tracks.length then
    .ok { l with tracks := l.tracks.modify l.row (fun ls => ls ++ [line]), row := l.row + 1 }
  else .error (.blockShape line.number l.row (l.row + 1))

def addAll (l : Layout) : List Line → Except Error Layout
  | [] => .ok l
  | line :: lines => (l.add line).bind (fun l => l.addAll lines)

def arrange (body : List Line) : Except Error (List (List Line)) :=
  match ({} : Layout).addAll body with
  | .error e => .error e
  | .ok l => if l.tracks.isEmpty then .error .noTracks else .ok l.tracks

end Layout

def lines (text : List Char) : List Line :=
  ((Text.pieces (fun c => c == '\n') text).map Text.trim).mapIdx (fun i l => ⟨i + 1, l⟩)

/-- Reads the lines that start with `>` into a header, wherever they stand. Those that start with
`#` are left out, and all others passed on. -/
def sift (h : Header) : List Line → Except Error (Header × List Line)
  | [] => .ok (h, [])
  | line :: rest =>
    match line.text with
    | '#' :: _ => sift h rest
    | '>' :: entry =>
      match h.read entry with
      | .error fault => .error (.header line.number fault)
      | .ok h => sift h rest
    | _ => (sift h rest).map (fun (h, body) => (h, line :: body))

/-- Appends the tokens of one line to a stream, up to the first that is refused. -/
def encodeWords (timing : Timing) (number : Nat) :
    List (List Char) → List UInt8 → Except Error (List UInt8)
  | [], stream => .ok stream
  | w :: ws, stream =>
    match Token.append timing w stream with
    | (.error fault, _) => .error (.token number (String.ofList w) fault)
    | (.ok _, stream) => encodeWords timing number ws stream

def encodeLines (timing : Timing) : List Line → List UInt8 → Except Error (List UInt8)
  | [], stream => .ok stream
  | line :: rest, stream =>
    match encodeWords timing line.number (Text.words line.text) stream with
    | .error e => .error e
    | .ok stream => encodeLines timing rest stream

def encodeTracks (timing : Timing) :
    List (List Line × Generator) → Except Error (List Track)
  | [] => .ok []
  | (ls, g) :: rest =>
    match encodeLines timing ls [] with
    | .error e => .error e
    | .ok data => (encodeTracks timing rest).map (fun ts => { data := data, generator := g } :: ts)

/-- Reads a score. Its song has no title, and every track loops. -/
def load (text : String) : Except Error Song :=
  match sift {} (lines text.toList) with
  | .error e => .error e
  | .ok (header, body) =>
    match header.settings with
    | .error key => .error (.missing key)
    | .ok settings =>
      match Layout.arrange body with
      | .error e => .error e
      | .ok tracks =>
        if settings.generators.length ≠ tracks.length then
          .error (.generatorCount settings.generators.length tracks.length)
        else
          (encodeTracks settings.timing (tracks.zip settings.generators)).map fun ts =>
            { samplesPerTick := settings.samplesPerTick
              attenuation := attenuationFor tracks.length
              tracks := ts }

end Polysynth.Score
