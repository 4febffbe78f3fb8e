import Nubernel.Lib.Word

/-! # vsprintf

Model of `vsnprintf` of `lib/vsprintf.c`. Characters are bytes; a format string is given
without its final NUL.

Each function that formats a value writes its characters one by one, a character only if
it is below the end of the buffer, and advances in any case. So such a function is
given here by the list of characters it writes. What `%p` prints is a parameter. What
`%n` stores is no output and is left out; its argument is taken.

`short` numbers are integers, cut to 16 bits where they are stored.
-/

open List

namespace Nubernel.Vsprintf

/-! ## Format specifications -/

inductive FormatType where
  | NONE | WIDTH | PRECISION | CHAR | STR | PTR | PERCENT_CHAR | INVALID
  | LONG_LONG | ULONG | LONG | UBYTE | BYTE | USHORT | SHORT | UINT | INT
  | NRCHARS | SIZE_T | PTRDIFF
deriving DecidableEq

structure Flags where
  ZEROPAD : Bool := false
  SIGN : Bool := false
  PLUS : Bool := false
  SPACE : Bool := false
  LEFT : Bool := false
  SMALL : Bool := false
  SPECIAL : Bool := false
deriving DecidableEq

/-- `struct printf_spec`. -/
structure Spec where
  type : FormatType := .NONE
  flags : Flags := {}
  base : Nat := 0
  /-- None of `hHlLtzZ` is the value -1. -/
  qualifier : Option Char := none
  field_width : Int := 0
  precision : Int := 0
deriving DecidableEq

/-- An `int` as it is stored in a `short`. -/
def s16 (x : Int) : Int := (x + 2 ^ 15) % 2 ^ 16 - 2 ^ 15

/-! ## `format_decode` -/

/-- The number; the cut to 16 bits is done where it is stored. -/
def skip_atoi (i : Nat) : List Char → Nat × List Char
  | [] => (i, [])
  | c :: fmt =>
    if c.isDigit then skip_atoi (i * 10 + (c.toNat - '0'.toNat)) fmt else (i, c :: fmt)

def decode_flags (flags : Flags) : List Char → Flags × List Char
  | [] => (flags, [])
  | c :: fmt =>
    if c = '-' then decode_flags { flags with LEFT := true } fmt
    else if c = '+' then decode_flags { flags with PLUS := true } fmt
    else if c = ' ' then decode_flags { flags with SPACE := true } fmt
    else if c = '#' then decode_flags { flags with SPECIAL := true } fmt
    else if c = '0' then decode_flags { flags with ZEROPAD := true } fmt
    else (flags, c :: fmt)

/-- The type of an integer conversion. -/
def integer_type (qualifier : Option Char) (flags : Flags) : FormatType :=
  if qualifier = some 'L' then .LONG_LONG
  else if qualifier = some 'l' then if flags.SIGN then .LONG else .ULONG
  else if qualifier = some 'z' ∨ qualifier = some 'Z' then .SIZE_T
  else if qualifier = some 't' then .PTRDIFF
  else if qualifier = some 'H' then if flags.SIGN then .BYTE else .UBYTE
  else if qualifier = some 'h' then if flags.SIGN then .SHORT else .USHORT
  else if flags.SIGN then .INT else .UINT

/-- The base and the flags that an integer conversion character sets. -/
def integer_format (c : Char) (flags : Flags) : Option (Nat × Flags) :=
  if c = 'o' then some (8, flags)
  else if c = 'x' then some (16, { flags with SMALL := true })
  else if c = 'X' then some (16, flags)
  else if c = 'd' ∨ c = 'i' then some (10, { flags with SIGN := true })
  else if c = 'u' then some (10, flags)
  else none

/-- The switch at the end of `format_decode`. -/
def decode_conversion (spec : Spec) : List Char → Spec × List Char
  | [] => ({ spec with base := 10, type := .INVALID }, [])
  | c :: fmt =>
    if c = 'c' then ({ spec with base := 10, type := .CHAR }, fmt)
    else if c = 's' then ({ spec with base := 10, type := .STR }, fmt)
    else if c = 'p' then ({ spec with base := 10, type := .PTR }, c :: fmt)
    else if c = 'n' then ({ spec with base := 10, type := .NRCHARS }, fmt)
    else if c = '%' then ({ spec with base := 10, type := .PERCENT_CHAR }, fmt)
    else
      match integer_format c spec.flags with
      | some (base, flags) =>
        ({ spec with base := base, flags := flags, type := integer_type spec.qualifier flags }, fmt)
      | none => ({ spec with base := 10, type := .INVALID }, c :: fmt)

/-- From the label `qualifier` on. -/
def decode_qualifier (spec : Spec) : List Char → Spec × List Char
  | [] => decode_conversion { spec with qualifier := none } []
  | c :: fmt =>
    if c = 'h' ∨ c = 'l' ∨ c = 'L' ∨ c = 'z' ∨ c = 'Z' ∨ c = 't' then
      if fmt.head? = some c ∧ c = 'l' then
        decode_conversion { spec with qualifier := some 'L' } fmt.tail
      else if fmt.head? = some c ∧ c = 'h' then
        decode_conversion { spec with qualifier := some 'H' } fmt.tail
      else decode_conversion { spec with qualifier := some c } fmt
    else decode_conversion { spec with qualifier := none } (c :: fmt)

/-- `spec->precision` from the digits of the format. -/
def literal_precision (i : Nat) : Int := if s16 i < 0 then 0 else s16 i

/-- From the label `precision` on. -/
def decode_precision (spec : Spec) : List Char → Spec × List Char
  | [] => decode_qualifier { spec with precision := -1 } []
  | c :: fmt =>
    if c = '.' then
      match fmt with
      | [] => decode_qualifier { spec with precision := -1 } []
      | d :: fmt' =>
        if d.isDigit then
          decode_qualifier
            { spec with precision := literal_precision (skip_atoi 0 (d :: fmt')).1 }
            (skip_atoi 0 (d :: fmt')).2
        else if d = '*' then ({ spec with precision := -1, type := .PRECISION }, fmt')
        else decode_qualifier { spec with precision := -1 } (d :: fmt')
    else decode_qualifier { spec with precision := -1 } (c :: fmt)

/-- The field width, after the flags. -/
def decode_width (spec : Spec) : List Char → Spec × List Char
  | [] => decode_precision { spec with field_width := -1 } []
  | c :: fmt =>
    if c.isDigit then
      decode_precision { spec with field_width := s16 (skip_atoi 0 (c :: fmt)).1 }
        (skip_atoi 0 (c :: fmt)).2
    else if c = '*' then ({ spec with field_width := -1, type := .WIDTH }, fmt)
    else decode_precision { spec with field_width := -1 } (c :: fmt)

/-- The field width was the last argument. -/
def take_width (spec : Spec) : Spec :=
  if spec.field_width < 0 then
    { spec with
      field_width := s16 (-spec.field_width)
      flags := { spec.flags with LEFT := true }
      type := .NONE }
  else { spec with type := .NONE }

/-- The precision was the last argument. -/
def take_precision (spec : Spec) : Spec :=
  { spec with precision := if spec.precision < 0 then 0 else spec.precision, type := .NONE }

/-- The next token: the specification, and the format after what has been read. -/
def format_decode (spec : Spec) (fmt : List Char) : Spec × List Char :=
  if spec.type = .WIDTH then decode_precision (take_width spec) fmt
  else if spec.type = .PRECISION then decode_qualifier (take_precision spec) fmt
  else
    match fmt with
    | [] => ({ spec with type := .NONE }, [])
    | c :: rest =>
      if c = '%' then
        decode_width { spec with type := .NONE, flags := (decode_flags {} rest).1 }
          (decode_flags {} rest).2
      else ({ spec with type := .NONE }, fmt.dropWhile (· ≠ '%'))

/-! ## Characters of one conversion -/

/-- `while (--w >= 0)`: the characters, and the number after the loop. -/
def pad (c : Char) (w : Int) : List Char × Int :=
  (replicate (s16 (w - 1) + 1).toNat c, if s16 (w - 1) ≥ 0 then -1 else s16 (w - 1))

/-- `while (--w > 0)`. -/
def pad_above (w : Int) : List Char × Int :=
  (replicate (s16 (w - 1)).toNat ' ', if s16 (w - 1) > 0 then 0 else s16 (w - 1))

/-- `while (len < w--)`. -/
def pad_to (len : Nat) (w : Int) : List Char × Int :=
  (replicate (w - len).toNat ' ', if (len : Int) < w then (len : Int) - 1 else s16 (w - 1))

/-- A digit; hexadecimal letters are lowered by `locase`. -/
def digit (small : Bool) (d : Nat) : Char :=
  if d < 10 then Char.ofNat ('0'.toNat + d)
  else Char.ofNat ((if small then 'a'.toNat else 'A'.toNat) + (d - 10))

/-- The digits of a number in base 8 or 16, the lowest first; 22 are enough for 64 bits. -/
def digits (base : Nat) (small : Bool) : Nat → Nat → List Char
  | 0, _ => []
  | fuel + 1, num =>
    digit small (num % base) ::
      if num / base = 0 then [] else digits base small fuel (num / base)

/-- `d + '0'`. -/
def decimal (d : Nat) : Char := Char.ofNat (d + '0'.toNat)

/-- `put_dec_trunc`: the digits of a number of at most five, the lowest first. -/
def put_dec_trunc (q : Nat) : List Char :=
  let d1 := q / 2 ^ 4 % 16
  let d2 := q / 2 ^ 8 % 16
  let d3 := q / 2 ^ 12
  let d0 := 6 * (d3 + d2 + d1) + q % 16
  let q := d0 * 0xcd / 2 ^ 11
  let d0 := d0 - 10 * q
  let d1 := q + 9 * d3 + 5 * d2 + d1
  if d1 = 0 then [decimal d0]
  else
    let q := d1 * 0xcd / 2 ^ 11
    let d1 := d1 - 10 * q
    let d2 := q + 2 * d2
    if d2 = 0 ∧ d3 = 0 then [decimal d0, decimal d1]
    else
      let q := d2 * 0xd / 2 ^ 7
      let d2 := d2 - 10 * q
      let d3 := q + 4 * d3
      if d3 = 0 then [decimal d0, decimal d1, decimal d2]
      else
        let q := d3 * 0xcd / 2 ^ 11
        let d3 := d3 - 10 * q
        [decimal d0, decimal d1, decimal d2, decimal d3] ++ if q = 0 then [] else [decimal q]

/-- `put_dec_full`: five digits in any case. -/
def put_dec_full (q : Nat) : List Char :=
  let d1 := q / 2 ^ 4 % 16
  let d2 := q / 2 ^ 8 % 16
  let d3 := q / 2 ^ 12
  let d0 := 6 * (d3 + d2 + d1) + q % 16
  let q := d0 * 0xcd / 2 ^ 11
  let d0 := d0 - 10 * q
  let d1 := q + 9 * d3 + 5 * d2 + d1
  let q := d1 * 0xcd / 2 ^ 11
  let d1 := d1 - 10 * q
  let d2 := q + 2 * d2
  let q := d2 * 0xd / 2 ^ 7
  let d2 := d2 - 10 * q
  let d3 := q + 4 * d3
  let q := d3 * 0xcd / 2 ^ 11
  let d3 := d3 - 10 * q
  [decimal d0, decimal d1, decimal d2, decimal d3, decimal q]

/-- `put_dec`; after three rounds a 64-bit number is below 100000. -/
def put_dec : Nat → Nat → List Char
  | 0, num => put_dec_trunc num
  | fuel + 1, num =>
    if num < 100000 then put_dec_trunc num
    else put_dec_full (num % 100000) ++ put_dec fuel (num / 100000)

/-- The sign, and the absolute value. -/
def sign_of (num : Nat) (flags : Flags) : List Char × Nat :=
  if flags.SIGN then
    if num ≥ 2 ^ 63 then (['-'], 2 ^ 64 - num)
    else if flags.PLUS then (['+'], num)
    else if flags.SPACE then ([' '], num)
    else ([], num)
  else ([], num)

/-- The characters for a 64-bit number. -/
def number (num : Nat) (spec : Spec) : List Char :=
  let zeropad := spec.flags.ZEROPAD && !spec.flags.LEFT
  let sign := (sign_of num spec.flags).1
  let pfx : List Char :=
    if spec.flags.SPECIAL && spec.base != 10 then
      if spec.base = 16 then ['0', if spec.flags.SMALL then 'x' else 'X'] else ['0']
    else []
  -- One is taken off the width for each character of the sign and the prefix.
  let w := (range (sign.length + pfx.length)).foldl (fun w _ => s16 (w - 1)) spec.field_width
  let num := (sign_of num spec.flags).2
  let tmp :=
    if num = 0 then ['0']
    else if spec.base ≠ 10 then digits spec.base spec.flags.SMALL 22 num
    else put_dec 3 num
  let precision := if (tmp.length : Int) > spec.precision then (tmp.length : Int) else spec.precision
  let w := s16 (w - precision)
  let lead := if zeropad || spec.flags.LEFT then ([], w) else pad ' ' w
  let mid := if spec.flags.LEFT then ([], lead.2) else pad (if zeropad then '0' else ' ') lead.2
  let zeros := replicate (s16 (precision - 1) - tmp.length + 1).toNat '0'
  lead.1 ++ sign ++ pfx ++ mid.1 ++ zeros ++ tmp.reverse ++ (pad ' ' mid.2).1

/-- The characters for the given string. -/
def string (s : List Char) (spec : Spec) : List Char :=
  let s := if spec.precision < 0 then s else s.take spec.precision.toNat
  let lead := if spec.flags.LEFT then ([], spec.field_width) else pad_to s.length spec.field_width
  lead.1 ++ s ++ (pad_to s.length lead.2).1

/-- The case `FORMAT_TYPE_CHAR`. -/
def character (c : Char) (spec : Spec) : List Char :=
  let lead := if spec.flags.LEFT then ([], spec.field_width) else pad_above spec.field_width
  lead.1 ++ [c] ++ (pad_above lead.2).1

/-! ## The loop over the format -/

/-- Where the arguments come from. -/
structure Source (σ : Type) where
  int : σ → Int × σ
  chr : σ → Char × σ
  str : σ → List Char × σ
  ptr : σ → Nat × σ
  /-- The number of an integer conversion, extended to 64 bits. -/
  num : FormatType → σ → Nat × σ
  /-- The pointer of `%n` is taken off. -/
  nrchars : σ → σ

/-- Where the characters go. -/
structure Sink (ω : Type) where
  /-- Part of the format string is copied. -/
  literal : List Char → ω → Option ω
  /-- Characters are written one by one. -/
  chars : List Char → ω → Option ω

/-- What a token does to the output. -/
inductive Action where
  | literal (l : List Char)
  | chars (l : List Char)
  | skip

def Action.run {ω : Type} (sink : Sink ω) (o : ω) : Action → Option ω
  | .literal l => sink.literal l o
  | .chars l => sink.chars l o
  | .skip => some o

/-- `isalnum` of the kernel, with the letters of Latin-1. -/
def isalnum (c : Char) : Bool :=
  c.isAlphanum || (0xc0 ≤ c.toNat && c.toNat ≤ 0xff && c.toNat != 0xd7 && c.toNat != 0xf7)

/-- What a token leads to: the output, and the format, the specification and the arguments
that are left. -/
structure Token (σ : Type) where
  action : Action
  fmt : List Char
  spec : Spec
  args : σ

section loop
variable {σ ω : Type} (src : Source σ) (pointer : List Char → Nat → Spec → List Char)
  (sink : Sink ω)

/-- The switch on the type of a token. -/
def convert (fmt rest : List Char) (spec : Spec) (args : σ) : Token σ :=
  match spec.type with
  | .NONE => ⟨.literal (fmt.take (fmt.length - rest.length)), rest, spec, args⟩
  | .WIDTH => ⟨.skip, rest, { spec with field_width := s16 (src.int args).1 }, (src.int args).2⟩
  | .PRECISION => ⟨.skip, rest, { spec with precision := s16 (src.int args).1 }, (src.int args).2⟩
  | .CHAR => ⟨.chars (character (src.chr args).1 spec), rest, spec, (src.chr args).2⟩
  | .STR => ⟨.chars (string (src.str args).1 spec), rest, spec, (src.str args).2⟩
  | .PTR =>
    ⟨.chars (pointer rest.tail (src.ptr args).1 spec), rest.dropWhile isalnum, spec,
      (src.ptr args).2⟩
  | .PERCENT_CHAR | .INVALID => ⟨.chars ['%'], rest, spec, args⟩
  | .NRCHARS => ⟨.skip, rest, spec, src.nrchars args⟩
  | type => ⟨.chars (number (src.num type args).1 spec), rest, spec, (src.num type args).2⟩

/-- One round of the loop: the next token of the format. -/
def next_token (fmt : List Char) (spec : Spec) (args : σ) : Token σ :=
  convert src pointer fmt (format_decode spec fmt).2 (format_decode spec fmt).1 args

/-- The loop of `vsnprintf`. -/
def printf_loop : Nat → List Char → Spec → σ → ω → Option ω
  | 0, _, _, _, _ => none
  | _ + 1, [], _, _, o => some o
  | fuel + 1, c :: fmt, spec, args, o =>
    let token := next_token src pointer (c :: fmt) spec args
    (token.action.run sink o).bind (printf_loop fuel token.fmt token.spec token.args)

end loop

/-- Rounds that are enough for a format: after `*` a token may be empty. -/
def rounds (fmt : List Char) : Nat := 2 * fmt.length + 2

/-! ## The buffer -/

/-- Memory, and the pointer `str`. -/
structure Out where
  mem : Nat → Char
  str : Nat

def NUL : Char := Char.ofNat 0

/-- `*p = c`. -/
def store (mem : Nat → Char) (p : Nat) (c : Char) : Nat → Char := fun a => if a = p then c else mem a

/-- `if (str < end) *str = c; ++str`. -/
def put (end_ : Nat) (o : Out) (c : Char) : Out :=
  { o with
    mem := if o.str < end_ then store o.mem o.str c else o.mem
    str := add32 o.str 1 }

/-- `memcpy`, for a length that is at most that of the list. -/
def memcpy (mem : Nat → Char) (p : Nat) (l : List Char) : Nat → Char :=
  fun a => if p ≤ a ∧ a < p + l.length then l.getD (a - p) NUL else mem a

/-- The case `FORMAT_TYPE_NONE`; a negative length is a `memcpy` over all memory. -/
def copy_literal (end_ : Nat) (l : List Char) (o : Out) : Option Out :=
  if o.str < end_ then
    if 2 ^ 31 ≤ sub32 end_ o.str then none
    else
      some { o with
        mem := memcpy o.mem o.str (l.take (sub32 end_ o.str))
        str := add32 o.str l.length }
  else some { o with str := add32 o.str l.length }

def buffer (end_ : Nat) : Sink Out where
  literal := copy_literal end_
  chars l o := some (l.foldl (put end_) o)

/-- `end`, and `size` cut to it. -/
def limits (buf size : Nat) : Nat × Nat :=
  if add32 buf size < buf then (2 ^ 32 - 1, 2 ^ 32 - 1 - buf) else (add32 buf size, size)

/-- The final NUL. -/
def terminate (end_ size : Nat) (o : Out) : Nat → Char :=
  if size > 0 then store o.mem (if o.str < end_ then o.str else sub32 end_ 1) NUL else o.mem

/-- `vsnprintf` for arguments from anywhere: the result and the memory. -/
def format {σ : Type} (src : Source σ) (pointer : List Char → Nat → Spec → List Char)
    (mem : Nat → Char) (buf size : Nat) (fmt : List Char) (args : σ) :
    Option (Nat × (Nat → Char)) :=
  if 2 ^ 31 ≤ size then some (0, mem)
  else
    (printf_loop src pointer (buffer (limits buf size).1) (rounds fmt) fmt {} args
      { mem := mem, str := buf }).map fun o =>
        (sub32 o.str buf, terminate (limits buf size).1 (limits buf size).2 o)

/-! ## Arguments on the stack -/

/-- Sign extension of the low `w` bits to 64. -/
def sext (w v : Nat) : Nat := if v % 2 ^ w < 2 ^ (w - 1) then v % 2 ^ w else v % 2 ^ w + 2 ^ 64 - 2 ^ w

/-- The low 32 bits as an `int`. -/
def toInt (v : Nat) : Int := if v % 2 ^ 32 < 2 ^ 31 then (v % 2 ^ 32 : Nat) else (v % 2 ^ 32 : Nat) - 2 ^ 32

/-- The number of an integer conversion in `vsnprintf`. -/
def va_num (type : FormatType) (v : Nat) : Nat :=
  match type with
  | .LONG_LONG => v % 2 ^ 64
  | .ULONG => v % 2 ^ 32
  | .LONG => sext 32 v
  | .SIZE_T => v % 2 ^ 32
  | .PTRDIFF => sext 32 v
  | .UBYTE => v % 2 ^ 8
  | .BYTE => sext 8 v
  | .USHORT => v % 2 ^ 16
  | .SHORT => sext 16 v
  | .INT => sext 32 v
  | _ => v % 2 ^ 32

def null_string : List Char := ['(', 'n', 'u', 'l', 'l', ')']

/-- The string that `string` prints for a pointer. -/
def va_string (cstr : Nat → List Char) (p : Nat) : List Char :=
  if p < PAGE_SIZE then null_string else cstr p

/-- The arguments of a `va_list`, one number each; `cstr` are the strings in memory. -/
def va_list (cstr : Nat → List Char) : Source (List Nat) where
  int args := (toInt (args.headD 0), args.tail)
  chr args := (Char.ofNat (args.headD 0 % 2 ^ 8), args.tail)
  str args := (va_string cstr (args.headD 0 % 2 ^ 32), args.tail)
  ptr args := (args.headD 0 % 2 ^ 32, args.tail)
  num type args := (va_num type (args.headD 0), args.tail)
  nrchars args := args.tail

def vsnprintf (cstr : Nat → List Char) (pointer : List Char → Nat → Spec → List Char)
    (mem : Nat → Char) (buf size : Nat) (fmt : List Char) (args : List Nat) :
    Option (Nat × (Nat → Char)) :=
  format (va_list cstr) pointer mem buf size fmt args

end Nubernel.Vsprintf
