namespace Polysynth.Text

/-- The characters with the Unicode property `White_Space`. -/
def isBlank (c : Char) : Bool :=
  let n := c.toNat
  (9 ≤ n && n ≤ 13) || n == 0x20 || n == 0x85 || n == 0xa0 || n == 0x1680 ||
    (0x2000 ≤ n && n ≤ 0x200a) || n == 0x2028 || n == 0x2029 || n == 0x202f || n == 0x205f ||
    n == 0x3000

def trim (cs : List Char) : List Char :=
  ((cs.dropWhile isBlank).reverse.dropWhile isBlank).reverse

def consFirst (c : Char) : List (List Char) → List (List Char)
  | [] => [[c]]
  | piece :: more => (c :: piece) :: more

/-- The parts between the characters that `p` marks, empty ones included. -/
def pieces (p : Char → Bool) (cs : List Char) : List (List Char) :=
  cs.foldr (fun c ps => if p c then [] :: ps else consFirst c ps) [[]]

def words (cs : List Char) : List (List Char) :=
  (pieces isBlank cs).filter (fun w => !w.isEmpty)

def splitFirst? (sep : Char) (cs : List Char) : Option (List Char × List Char) :=
  match cs.dropWhile (fun c => c != sep) with
  | [] => none
  | _ :: after => some (cs.takeWhile (fun c => c != sep), after)

def dropSuffix? (c : Char) (cs : List Char) : Option (List Char) :=
  if cs.getLast? = some c then some cs.dropLast else none

def ofDigits (cs : List Char) : Nat :=
  cs.foldl (fun n c => 10 * n + (c.toNat - '0'.toNat)) 0

def natural? (cs : List Char) : Option Nat :=
  if !cs.isEmpty && cs.all Char.isDigit then some (ofDigits cs) else none

def naturalBelow? (limit : Nat) (cs : List Char) : Option Nat :=
  (natural? cs).filter (fun n => n < limit)

/-- Reads a number below `limit` that may have a plus sign. -/
def plainBelow? (limit : Nat) : List Char → Option Nat
  | '+' :: cs => naturalBelow? limit cs
  | cs => naturalBelow? limit cs

def signed? : List Char → Option Int
  | '-' :: cs => (natural? cs).map (fun n => -(n : Int))
  | '+' :: cs => (natural? cs).map Int.ofNat
  | cs => (natural? cs).map Int.ofNat

def fill (c : Char) (n : Nat) : String := String.ofList (List.replicate n c)

def cut (n : Nat) (s : String) : String := String.ofList (s.toList.take n)

def flushLeft (width : Nat) (s : String) : String := s ++ fill ' ' (width - s.length)

def flushRight (width : Nat) (s : String) : String := fill ' ' (width - s.length) ++ s

/-- Text in the middle of its field. Of an odd gap the larger half is at the right. -/
def centred (c : Char) (width : Nat) (s : String) : String :=
  let gap := width - s.length
  fill c (gap / 2) ++ s ++ fill c (gap - gap / 2)

end Polysynth.Text
