import Mathlib.Logic.Function.Iterate
import XyOS.Foundation.Text
import XyOS.Foundation.Word

/-! The screen and the formatted output of `console.c`. `char` is signed, `int` and
`unsigned long` have 32 bits. -/

namespace XyOS.Driver

def COLUMNS : ℕ := 80
def LINES : ℕ := 24
def ATTRIBUTE : UInt8 := 7

/-- The offsets of `video` count from `VIDEO`. -/
structure Console where
  xpos : ℕ
  ypos : ℕ
  video : ℕ → UInt8

def Console.newline (s : Console) : Console :=
  { s with xpos := 0, ypos := if s.ypos + 1 ≥ LINES then 0 else s.ypos + 1 }

def putchar (c : BitVec 32) (s : Console) : Console :=
  if c.toNat = '\n'.toNat ∨ c.toNat = '\r'.toNat then s.newline
  else
    let cell := (s.xpos + s.ypos * COLUMNS) * 2
    let video := Function.update s.video cell (UInt8.ofNat (c.toNat % 256))
    let s := { s with video := Function.update video (cell + 1) ATTRIBUTE, xpos := s.xpos + 1 }
    if s.xpos ≥ COLUMNS then s.newline else s

/-! ## itoa -/

def digitByte (remainder : ℕ) : UInt8 :=
  UInt8.ofNat (if remainder < 10 then remainder + '0'.toNat else remainder + 'a'.toNat - 10)

def putDigits (divisor : ℕ) : ℕ → Memory → ℕ → ℕ → Except Fault (Memory × ℕ)
  | 0, _, _, _ => .error .diverges
  | fuel + 1, m, p, ud =>
    let m := Function.update m p (digitByte (ud % divisor))
    if ud / divisor = 0 then .ok (m, p + 1) else putDigits divisor fuel m (p + 1) (ud / divisor)

def reverseDigits : ℕ → Memory → ℕ → ℕ → Except Fault Memory
  | 0, _, _, _ => .error .diverges
  | fuel + 1, m, p1, p2 =>
    if p1 < p2 then
      reverseDigits fuel (Function.update (Function.update m p1 (m p2)) p2 (m p1)) (p1 + 1) (p2 - 1)
    else .ok m

def itoaDigits (m : Memory) (buf divisor ud : ℕ) : Except Fault Memory := do
  let (m, p) ← putDigits divisor loopFuel m buf ud
  reverseDigits loopFuel (Function.update m p 0) buf (p - 1)

def itoa (m : Memory) (buf : ℕ) (base : UInt8) (d : BitVec 32) : Except Fault Memory :=
  if base = 'd'.toUInt8 ∧ d.toInt < 0 then
    itoaDigits (Function.update m buf '-'.toUInt8) (buf + 1) 10 (-d).toNat
  else itoaDigits m buf (if base = 'x'.toUInt8 then 16 else 10) d.toNat

/-! ## printf -/

/-- The locals of `printf`, with the addresses of the bytes that were read through `format`.
The `int` at `arg` is `args arg`, and `buf` is a memory of its own. -/
structure Printing where
  console : Console
  format : ℕ
  arg : ℕ
  buf : Memory
  reads : List ℕ

/-- `*format++` -/
def fetch (m : Memory) (s : Printing) : UInt8 × Printing :=
  (m s.format, { s with format := s.format + 1, reads := s.reads ++ [s.format] })

/-- `for (p2 = p; *p2; p2++);` -/
def stringEnd (m : Memory) : ℕ → ℕ → Except Fault ℕ
  | 0, _ => .error .diverges
  | fuel + 1, p2 => if m p2 = 0 then .ok p2 else stringEnd m fuel (p2 + 1)

def putChars (m : Memory) : ℕ → ℕ → Console → Except Fault Console
  | 0, _, _ => .error .diverges
  | fuel + 1, p, s =>
    if m p = 0 then .ok s else putChars m fuel (p + 1) (putchar ((m p).toBitVec.signExtend 32) s)

def putString (m : Memory) (p : ℕ) (pad0 : Bool) (pad : ℕ) (s : Console) : Except Fault Console := do
  let p2 ← stringEnd m loopFuel p
  let padding := putchar (BitVec.ofNat 32 (if pad0 then '0' else ' ').toNat)
  putChars m loopFuel p (padding^[p + pad - p2] s)

/-- The literal `"(null)"` stands at 0 of a memory of its own. -/
def nullText : Memory := Text.writeBytes (fun _ => 0) 0 ("(null)".toList.map Char.toUInt8 ++ [0])

def stringArg (m : Memory) (p : ℕ) : Memory × ℕ := if p = 0 then (nullText, 0) else (m, p)

def convert (m : Memory) (args : ℕ → BitVec 32) (c : UInt8) (pad0 : Bool) (pad : ℕ) (s : Printing) :
    Except Fault Printing :=
  if c = 'd'.toUInt8 ∨ c = 'u'.toUInt8 ∨ c = 'x'.toUInt8 then do
    let buf ← itoa s.buf 0 c (args s.arg)
    let console ← putString buf 0 pad0 pad s.console
    .ok { s with buf := buf, console := console, arg := s.arg + 1 }
  else if c = 's'.toUInt8 then do
    let text := stringArg m (args s.arg).toNat
    let console ← putString text.1 text.2 pad0 pad s.console
    .ok { s with console := console, arg := s.arg + 1 }
  else .ok { s with console := putchar (args s.arg) s.console, arg := s.arg + 1 }

def isDigit (c : UInt8) : Bool := '0'.toUInt8 ≤ c && c ≤ '9'.toUInt8

/-- The rest of a conversion behind its flag: `c` is the byte read last. -/
def padded (m : Memory) (args : ℕ → BitVec 32) (c : UInt8) (pad0 : Bool) (s : Printing) :
    Except Fault Printing :=
  if isDigit c then
    let (c', s) := fetch m s
    convert m args c' pad0 (c.toNat - '0'.toNat) s
  else convert m args c pad0 0 s

def conversion (m : Memory) (args : ℕ → BitVec 32) (s : Printing) : Except Fault Printing :=
  let (c, s) := fetch m s
  if c = '0'.toUInt8 then
    let (c, s) := fetch m s
    padded m args c true s
  else padded m args c false s

def printLoop (m : Memory) (args : ℕ → BitVec 32) : ℕ → Printing → Except Fault Printing
  | 0, _ => .error .diverges
  | fuel + 1, s =>
    let (c, s) := fetch m s
    if c = 0 then .ok s
    else if c ≠ '%'.toUInt8 then
      printLoop m args fuel { s with console := putchar (c.toBitVec.signExtend 32) s.console }
    else do
      let s ← conversion m args s
      printLoop m args fuel s

/-- `buf` is not initialised: it starts with what the stack holds. -/
def printf (m : Memory) (args : ℕ → BitVec 32) (format : ℕ) (buf : Memory) (console : Console) :
    Except Fault Printing :=
  printLoop m args loopFuel ⟨console, format, 0, buf, []⟩

end XyOS.Driver
