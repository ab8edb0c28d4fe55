import Polysynth.Text

namespace Polysynth

structure Arguments where
  /-- The score. -/
  path : String
  /-- The file to render to. -/
  wav : Option String
  maxSeconds : UInt32
  /-- Play every track once. -/
  once : Bool
  /-- Only describe the song. -/
  info : Bool
  deriving DecidableEq

namespace Arguments

def defaultSeconds : UInt32 := 300

inductive Stop where
  /-- They ask for help. -/
  | help
  | misuse
  deriving DecidableEq

structure Draft where
  path : Option String := none
  wav : Option String := none
  maxSeconds : Option UInt32 := none
  once : Bool := false
  info : Bool := false

namespace Draft

def setPath (value : String) (d : Draft) : Except Stop Draft :=
  if value.isEmpty || d.path.isSome then .error .misuse else .ok { d with path := some value }

def setWav (value : String) (d : Draft) : Except Stop Draft :=
  if value.isEmpty || d.wav.isSome then .error .misuse else .ok { d with wav := some value }

/-- Takes a number of seconds below `2 ^ 32`. It may have a sign. -/
def setMaxSeconds (value : String) (d : Draft) : Except Stop Draft :=
  if d.maxSeconds.isSome then .error .misuse
  else
    match Text.signed? value.toList with
    | none => .error .misuse
    | some n =>
      if 0 ≤ n ∧ n < 0x100000000 then .ok { d with maxSeconds := some (UInt32.ofNat n.toNat) }
      else .error .misuse

def setOnce (d : Draft) : Except Stop Draft :=
  if d.once then .error .misuse else .ok { d with once := true }

def setInfo (d : Draft) : Except Stop Draft :=
  if d.info then .error .misuse else .ok { d with info := true }

def finish (d : Draft) : Except Stop Arguments :=
  match d.path with
  | none => .error .misuse
  | some path =>
    .ok { path := path, wav := d.wav, maxSeconds := d.maxSeconds.getD defaultSeconds
          once := d.once, info := d.info }

end Draft

inductive Shape where
  | separator
  /-- One dash and letters, by the first of them. -/
  | letter (c : Char)
  /-- An option without a value, or with the value in the next argument. -/
  | option (name : String)
  | optionWith (name value : String)
  | value

def shape (arg : String) : Shape :=
  match arg.toList with
  | ['-', '-'] => .separator
  | '-' :: '-' :: text =>
    match Text.splitFirst? '=' text with
    | none => .option (String.ofList text)
    | some (name, value) => .optionWith (String.ofList name) (String.ofList value)
  | '-' :: c :: _ => .letter c
  | _ => .value

def isValue (arg : String) : Bool :=
  match shape arg with
  | .value => true
  | _ => false

def readPaths (d : Draft) : List String → Except Stop Draft
  | [] => .ok d
  | arg :: more => (d.setPath arg).bind (fun d => readPaths d more)

def readAll (d : Draft) : List String → Except Stop Draft
  | [] => .ok d
  | arg :: more =>
    match shape arg with
    | .separator => readPaths d more
    | .value => (d.setPath arg).bind (fun d => readAll d more)
    | .letter 'h' => .error .help
    | .option "help" => .error .help
    | .optionWith "wav" value => (d.setWav value).bind (fun d => readAll d more)
    | .optionWith "max-seconds" value => (d.setMaxSeconds value).bind (fun d => readAll d more)
    | .option "once" => d.setOnce.bind (fun d => readAll d more)
    | .option "info" => d.setInfo.bind (fun d => readAll d more)
    | .option "wav" =>
      match more with
      | [] => .error .misuse
      | value :: more =>
        if isValue value then (d.setWav value).bind (fun d => readAll d more) else .error .misuse
    | .option "max-seconds" =>
      match more with
      | [] => .error .misuse
      | value :: more =>
        if isValue value then (d.setMaxSeconds value).bind (fun d => readAll d more)
        else .error .misuse
    | _ => .error .misuse

/-- Reads the arguments: one path, and each option at most once. After `--` every argument is a
path. -/
def read (args : List String) : Except Stop Arguments := (readAll {} args).bind Draft.finish

def options : List (String × String) :=
  [("      --wav <WAV>", "Render to an 8-bit mono WAV file instead of playing"),
    ("      --max-seconds <MAX_SECONDS>",
      s!"Longest render, in seconds [default: {defaultSeconds}]"),
    ("      --once", "Play every track once instead of looping"),
    ("      --info", "Print song information and exit"),
    ("  -h, --help", "Print help")]

def helpText : String :=
  "Play or render a pmpc score\n\nUsage: pmpc [OPTIONS] <PATH>\n\n" ++
    "Arguments:\n  <PATH>  Score file\n\nOptions:\n" ++
    String.join (options.map (fun (o, about) => Text.flushLeft 35 o ++ about ++ "\n"))

end Arguments

end Polysynth
