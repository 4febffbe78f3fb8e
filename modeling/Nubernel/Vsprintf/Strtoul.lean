import Nubernel.Lib.Word

/-! # Strings to numbers (lib/vsprintf.c)

`simple_strtoull` takes the digits it finds, in the base given or guessed from
the prefix, and wraps around `2 ^ 64`. `strict_strtoul` accepts the result if
nothing but a newline is left of the string.
-/

open List Nat

namespace Nubernel.Vsprintf

/-! ## Model -/

/-- `cp[i]`; a string ends with a NUL. -/
def charAt (cp : List Char) (i : Nat) : Char := cp.getD i (Char.ofNat 0)

def TOLOWER (c : Char) : Nat := c.toNat ||| 0x20

def isdigit (c : Char) : Bool := '0' ≤ c && c ≤ '9'

def isxdigit (c : Char) : Bool := isdigit c || ('a' ≤ c && c ≤ 'f') || ('A' ≤ c && c ≤ 'F')

def simple_guess_base (cp : List Char) : Nat :=
  if charAt cp 0 = '0' then
    if TOLOWER (charAt cp 1) = 'x'.toNat ∧ isxdigit (charAt cp 2) then 16 else 8
  else 10

def digit_value (c : Char) : Nat :=
  if isdigit c then c.toNat - '0'.toNat else TOLOWER c - 'a'.toNat + 10

/-- The character is a digit in the base. -/
def isDigit (base : Nat) (c : Char) : Bool := isxdigit c && digit_value c < base

/-- The loop of `simple_strtoull`: the number and what is left of the string. -/
def strtoull_loop (base : Nat) : List Char → Nat → Nat × List Char
  | [], result => (result, [])
  | c :: cp, result =>
    if isDigit base c then strtoull_loop base cp ((result * base + digit_value c) % 2 ^ 64)
    else (result, c :: cp)

/-- The base in which `simple_strtoull` reads. -/
def baseOf (base : Nat) (cp : List Char) : Nat := if base = 0 then simple_guess_base cp else base

/-- `simple_strtoull` skips a prefix. -/
def Prefixed (base : Nat) (cp : List Char) : Prop :=
  baseOf base cp = 16 ∧ charAt cp 0 = '0' ∧ TOLOWER (charAt cp 1) = 'x'.toNat

instance (base : Nat) (cp : List Char) : Decidable (Prefixed base cp) :=
  inferInstanceAs (Decidable (_ ∧ _ ∧ _))

/-- What is left without the prefix. -/
def body (base : Nat) (cp : List Char) : List Char := if Prefixed base cp then cp.drop 2 else cp

def simple_strtoull (cp : List Char) (base : Nat) : Nat × List Char :=
  strtoull_loop (baseOf base cp) (body base cp) 0

def simple_strtoul (cp : List Char) (base : Nat) : Nat × List Char :=
  ((simple_strtoull cp base).1 % 2 ^ 32, (simple_strtoull cp base).2)

/-- What is returned, and `*res`. -/
def strict_strtoul (cp : List Char) (base : Nat) : Except Errno Unit × Nat :=
  if cp.length = 0 then (.error .EINVAL, 0)
  else
    let (val, tail) := simple_strtoul cp base
    if tail.length = cp.length then (.error .EINVAL, 0)
    else if tail = [] ∨ (cp.length = cp.length - tail.length + 1 ∧ charAt tail 0 = '\n') then
      (.ok (), val)
    else (.error .EINVAL, 0)

/-! ## Numerals -/

/-- What the digits denote after `r`. -/
def value (b : Nat) (ds : List Char) (r : Nat) : Nat :=
  ds.foldl (fun r c => r * b + digit_value c) r

/-- What may stand before the digits, and their base. -/
inductive Prefix (base : Nat) (ds : List Char) : List Char → Nat → Prop where
  | plain : base ∈ [8, 10, 16] → Prefix base ds [] base
  | hex {x : Char} : base ∈ [0, 16] → x = 'x' ∨ x = 'X' → Prefix base ds ['0', x] 16
  | guess : base = 0 → Prefix base ds [] (if ds.head? = some '0' then 8 else 10)

/-- A numeral that denotes `v`, with a newline after it or not. -/
structure Numeral (base : Nat) (s : List Char) (v : Nat) (pre ds nl : List Char) (b : Nat) :
    Prop where
  shape : s = pre ++ (ds ++ nl)
  base : Prefix base ds pre b
  nonempty : ds ≠ []
  digits : ∀ c ∈ ds, isDigit b c = true
  newline : nl = [] ∨ nl = ['\n']
  value : v = value b ds 0

def Denotes (base : Nat) (s : List Char) (v : Nat) : Prop :=
  ∃ pre ds nl b, Numeral base s v pre ds nl b

/-- A hexadecimal prefix without digits. -/
def Bare (s : List Char) : Prop := ∃ x nl, (x = 'x' ∨ x = 'X') ∧ (nl = [] ∨ nl = ['\n']) ∧
  s = '0' :: x :: nl

/-! ## The converter -/

variable {base r b v : Nat} {ds s nl : List Char} {c : Char}

theorem value_mod : value b ds (r % 2 ^ 64) % 2 ^ 64 = value b ds r % 2 ^ 64 := by
  unfold value
  induction ds generalizing r with
  | nil => simp
  | cons c ds ih =>
    have hmod : (r % 2 ^ 64 * b + digit_value c) % 2 ^ 64 = (r * b + digit_value c) % 2 ^ 64 := by
      rw [add_mod, mul_mod, mod_mod, ← mul_mod, ← add_mod]
    rw [foldl_cons, foldl_cons, ← ih, hmod, ih]

/-- The loop takes the digits of a numeral. -/
theorem strtoull_loop_digits (hd : ∀ c ∈ ds, isDigit b c = true) (hnl : nl = [] ∨ nl = ['\n'])
    (hr : r < 2 ^ 64) : strtoull_loop b (ds ++ nl) r = (value b ds r % 2 ^ 64, nl) := by
  induction ds generalizing r with
  | nil =>
    have hstop : strtoull_loop b nl r = (r, nl) := by
      rcases hnl with rfl | rfl
      · rfl
      rw [strtoull_loop, isDigit, show isxdigit '\n' = false by decide]
      rfl
    exact hstop.trans (Prod.ext (mod_eq_of_lt hr).symm rfl)
  | cons c ds ih =>
    obtain ⟨hc, hd⟩ := forall_mem_cons.mp hd
    rw [cons_append, strtoull_loop, if_pos hc, ih hd (mod_lt _ (by decide)), value_mod]
    rfl

/-- The loop takes nothing but digits. -/
theorem strtoull_loop_split (b : Nat) (cp : List Char) (r : Nat) :
    ∃ ds, (∀ c ∈ ds, isDigit b c = true) ∧ cp = ds ++ (strtoull_loop b cp r).2 := by
  induction cp generalizing r with
  | nil => exact ⟨[], by simp, rfl⟩
  | cons c cp ih => ?_
  rw [strtoull_loop]
  by_cases hc : isDigit b c = true
  · obtain ⟨ds, hd, heq⟩ := ih ((r * b + digit_value c) % 2 ^ 64)
    rw [if_pos hc]
    exact ⟨c :: ds, forall_mem_cons.mpr ⟨hc, hd⟩, congrArg (c :: ·) heq⟩
  rw [if_neg hc]
  exact ⟨[], by simp, rfl⟩

theorem tolower_x : TOLOWER c = 'x'.toNat ↔ c = 'x' ∨ c = 'X' := by
  have hall : ∀ n < 121, (n ||| 0x20 = 120 ↔ n = 120 ∨ n = 88) := by decide
  rw [← Char.toNat_inj, ← Char.toNat_inj]
  show c.toNat ||| 0x20 = 120 ↔ c.toNat = 120 ∨ c.toNat = 88
  by_cases hlt : c.toNat < 121
  · exact hall _ hlt
  have hle := @left_le_or c.toNat 0x20
  omega

theorem isxdigit_of_isDigit (h : isDigit b c = true) : isxdigit c = true := by
  exact (Bool.and_eq_true_iff.mp h).1

/-- Digits and what may come after them do not begin with the `x` of a prefix. -/
theorem no_x (hd : ∀ c ∈ ds, isDigit b c = true) (hnl : nl = [] ∨ nl = ['\n']) :
    ¬TOLOWER (charAt (ds ++ nl) 0) = 'x'.toNat := by
  cases ds with
  | nil => rcases hnl with rfl | rfl <;> decide
  | cons d ds =>
    intro hx
    have hdig := isxdigit_of_isDigit (hd d mem_cons_self)
    rcases tolower_x.mp hx with heq | heq <;> rw [show d = _ from heq] at hdig <;> cases hdig

/-- Without a prefix the first character decides about the base. -/
theorem baseOf_zero (h : ¬Prefixed 0 s) : baseOf 0 s = if charAt s 0 = '0' then 8 else 10 := by
  by_cases hzero : charAt s 0 = '0'
  · rw [if_pos hzero]
    refine (if_pos hzero).trans (if_neg fun hc => h ⟨?_, hzero, hc.1⟩)
    exact (if_pos hzero).trans (if_pos hc)
  rw [if_neg hzero]
  exact if_neg hzero

/-- The base and the digits of a numeral are found. -/
theorem Numeral.found {pre : List Char} (h : Numeral base s v pre ds nl b) :
    baseOf base s = b ∧ body base s = ds ++ nl := by
  obtain ⟨rfl, hbase, hne, hd, hnl, _⟩ := h
  obtain ⟨c, ds, rfl⟩ := exists_cons_of_ne_nil hne
  obtain ⟨hc, hd'⟩ := forall_mem_cons.mp hd
  have hplain : ¬Prefixed base (c :: ds ++ nl) := fun hpre => no_x hd' hnl hpre.2.2
  cases hbase with
  | plain hmem => exact ⟨if_neg (by rintro rfl; simp at hmem), if_neg hplain⟩
  | @hex x hmem hx =>
    have hb : baseOf base ('0' :: x :: c :: (ds ++ nl)) = 16 := by
      unfold baseOf
      split
      · exact (if_pos rfl).trans (if_pos ⟨tolower_x.mpr hx, isxdigit_of_isDigit hc⟩)
      · simp_all
    exact ⟨hb, if_pos ⟨hb, rfl, tolower_x.mpr hx⟩⟩
  | guess h0 =>
    subst h0
    exact ⟨(baseOf_zero hplain).trans (if_congr (by simp [charAt]) rfl rfl), if_neg hplain⟩

/-- A numeral is converted, up to wrapping. -/
theorem Numeral.converted {pre : List Char} (h : Numeral base s v pre ds nl b) :
    simple_strtoul s base = (v % 2 ^ 32, nl) := by
  unfold simple_strtoul simple_strtoull
  rw [h.found.1, h.found.2, strtoull_loop_digits h.digits h.newline (by decide),
    mod_mod_of_dvd _ (by decide), h.value]

theorem Prefixed.split (h : Prefixed base s) :
    ∃ x, (x = 'x' ∨ x = 'X') ∧ s = '0' :: x :: body base s := by
  have hbody : body base s = s.drop 2 := if_pos h
  obtain ⟨_, h0, hx⟩ := h
  match s, h0, hx with
  | [], h0, _ => cases h0
  | [_], _, hx => exact absurd (show TOLOWER (Char.ofNat 0) = 'x'.toNat from hx) (by decide)
  | c :: x :: s, h0, hx => exact ⟨x, tolower_x.mp hx, by rw [hbody, show c = '0' from h0]; rfl⟩

/-- A string of which nothing but a newline is left is a numeral, if there is a digit. -/
theorem denotes_of_left (hbase : base ∈ [0, 8, 10, 16])
    (hd : ∀ c ∈ ds, isDigit (baseOf base s) c = true) (hbody : body base s = ds ++ nl) (hnl : nl = [] ∨ nl = ['\n']) (hne : nl.length ≠ s.length)
    (hbare : ¬(base = 16 ∧ Bare s)) : ∃ v, Denotes base s v := by
  by_cases hpre : Prefixed base s
  · obtain ⟨x, hx, hs⟩ := hpre.split
    rw [hbody] at hs
    have hmem : base = 0 ∨ base = 16 := by
      by_contra hnot
      have hb := hpre.1
      unfold baseOf at hb
      grind
    refine ⟨_, ['0', x], ds, nl, 16, hs, .hex (by simpa using hmem) hx, ?_, hpre.1 ▸ hd, hnl, rfl⟩
    rintro rfl
    rcases hmem with rfl | rfl
    · -- The base was guessed from a digit behind the prefix.
      have hguess := hpre.1
      rw [hs] at hguess
      rcases hx with rfl | rfl <;> rcases hnl with rfl | rfl <;> cases hguess
    exact hbare ⟨rfl, x, nl, hx, hnl, hs⟩
  rw [body, if_neg hpre] at hbody
  have hds : ds ≠ [] := by
    rintro rfl
    exact hne (congrArg length hbody).symm
  refine ⟨_, [], ds, nl, baseOf base s, hbody, ?_, hds, hd, hnl, rfl⟩
  by_cases h0 : base = 0
  · subst h0
    obtain ⟨c, ds, rfl⟩ := exists_cons_of_ne_nil hds
    have hb : baseOf 0 s = if (c :: ds).head? = some '0' then 8 else 10 := by
      rw [baseOf_zero hpre, hbody]
      exact if_congr (by simp [charAt]) rfl rfl
    rw [hb]
    exact .guess rfl
  rw [baseOf, if_neg h0]
  exact .plain (by simpa [h0] using hbase)

theorem Numeral.unique {pre pre' ds' nl' : List Char} {v' b' : Nat}
    (h : Numeral base s v pre ds nl b) (h' : Numeral base s v' pre' ds' nl' b') : v = v' := by
  obtain ⟨hb, hbody⟩ := h.found
  obtain ⟨hb', hbody'⟩ := h'.found
  obtain rfl := hb.symm.trans hb'
  have hsame := hbody.symm.trans hbody'
  -- The loop stops at the same place for both.
  have hloop := strtoull_loop_digits h.digits h.newline (r := 0) (by decide)
  rw [hsame, strtoull_loop_digits h'.digits h'.newline (by decide), Prod.mk.injEq] at hloop
  obtain ⟨_, rfl⟩ := hloop
  rw [h.value, h'.value, append_cancel_right hsame]

/-- A numeral is accepted, whether its value fits or not. -/
theorem Numeral.accepted {pre : List Char} (h : Numeral base s v pre ds nl b) :
    strict_strtoul s base = (.ok (), v % 2 ^ 32) := by
  have hpos := length_pos_iff.mpr h.nonempty
  have hlen : s.length = pre.length + (ds.length + nl.length) := by
    rw [h.shape, length_append, length_append]
  unfold strict_strtoul
  rw [if_neg (by omega)]
  simp only [h.converted]
  rw [if_neg (by omega), if_pos]
  rcases h.newline with rfl | rfl
  · exact .inl rfl
  · exact .inr ⟨by rw [length_singleton] at hlen ⊢; omega, rfl⟩

theorem refused (hbase : base ∈ [0, 8, 10, 16]) (hnone : ∀ v, ¬Denotes base s v)
    (hbare : ¬(base = 16 ∧ Bare s)) : strict_strtoul s base = (.error .EINVAL, 0) := by
  obtain ⟨ds, hd, hbody⟩ := strtoull_loop_split (baseOf base s) (body base s) 0
  have hle : (body base s).length ≤ s.length := by
    unfold body
    split
    · rw [length_drop]
      omega
    exact le_refl _
  unfold strict_strtoul simple_strtoul simple_strtoull
  simp only
  generalize (strtoull_loop (baseOf base s) (body base s) 0).2 = tail at hbody ⊢
  rw [hbody, length_append] at hle
  split
  · rfl
  split
  · rfl
  rename_i hne
  rw [if_neg]
  intro htail
  refine absurd (denotes_of_left hbase hd hbody ?_ hne hbare) (not_exists.mpr hnone)
  rcases htail with rfl | ⟨hlen, hc⟩
  · exact .inl rfl
  match tail, hlen, hc with
  | [c], _, hc => exact .inr (by rw [show c = '\n' from hc])
  | c :: d :: tail, hlen, _ =>
    simp only [length_cons] at hlen hle
    omega

/-- A prefix alone is accepted, and denotes nothing. -/
theorem Bare.accepted (h : Bare s) :
    strict_strtoul s 16 = (.ok (), 0) ∧ ∀ v, ¬Denotes 16 s v := by
  obtain ⟨x, nl, hx, hnl, rfl⟩ := h
  refine ⟨by rcases hx with rfl | rfl <;> rcases hnl with rfl | rfl <;> decide +kernel, ?_⟩
  rintro v ⟨pre, ds, nl', b, hnum⟩
  have hbody : nl = ds ++ nl' :=
    (if_pos ⟨rfl, rfl, tolower_x.mpr hx⟩).symm.trans hnum.found.2
  obtain ⟨c, ds, rfl⟩ := exists_cons_of_ne_nil hnum.nonempty
  rcases hnl with rfl | rfl
  · cases hbody
  have hc := isxdigit_of_isDigit (hnum.digits c mem_cons_self)
  rw [← (cons.inj hbody).1] at hc
  cases hc

/-! ## Main theorem -/

/-- What is expected: the value of a numeral that fits is stored, and all else is refused. -/
def Strict (base : Nat) (s : List Char) (r : Except Errno Unit × Nat) : Prop :=
  (∃ v < 2 ^ 32, Denotes base s v ∧ r = (.ok (), v)) ∨
    (∀ v < 2 ^ 32, ¬Denotes base s v) ∧ r = (.error .EINVAL, 0)

/-- `strict_strtoul` is strict if and only if the string denotes no value that is too large
and is not a hexadecimal prefix alone. -/
theorem strict_strtoul_correct (hbase : base ∈ [0, 8, 10, 16]) :
    Strict base s (strict_strtoul s base) ↔
      (∀ v, Denotes base s v → v < 2 ^ 32) ∧ ¬(base = 16 ∧ Bare s) := by
  constructor
  · intro h
    constructor
    · rintro v ⟨pre, ds, nl, b, hnum⟩
      rw [hnum.accepted] at h
      rcases h with ⟨v', hfit, ⟨_, _, _, _, hnum'⟩, _⟩ | ⟨_, herr⟩
      · exact hnum.unique hnum' ▸ hfit
      cases herr
    rintro ⟨rfl, hbare⟩
    rw [hbare.accepted.1] at h
    rcases h with ⟨v, _, hv, _⟩ | ⟨_, herr⟩
    · exact hbare.accepted.2 v hv
    cases herr
  rintro ⟨hfit, hbare⟩
  by_cases hsome : ∃ v, Denotes base s v
  · obtain ⟨v, hv⟩ := hsome
    refine .inl ⟨v, hfit v hv, hv, ?_⟩
    obtain ⟨_, _, _, _, hnum⟩ := hv
    rw [hnum.accepted, mod_eq_of_lt (hfit v ⟨_, _, _, _, hnum⟩)]
  have hnone := not_exists.mp hsome
  exact .inr ⟨fun v _ => hnone v, refused hbase hnone hbare⟩

theorem strict_strtoul_correct_hex :
    Strict 0 ['0', 'x', '1', 'f', '\n'] (strict_strtoul ['0', 'x', '1', 'f', '\n'] 0) := by
  have hnum : Numeral 0 ['0', 'x', '1', 'f', '\n'] 31 ['0', 'x'] ['1', 'f'] ['\n'] 16 :=
    ⟨rfl, .hex (by decide) (.inl rfl), by decide, all_eq_true.mp (by decide), .inr rfl, by decide⟩
  refine (strict_strtoul_correct (by decide)).mpr ⟨?_, fun h => absurd h.1 (by decide)⟩
  rintro v ⟨_, _, _, _, h⟩
  rw [h.unique hnum]
  decide

/-- **A number that does not fit, and no number.** `4294967296` wraps to 0, and `0x` alone
is taken for 0. -/
theorem strict_strtoul_accepts :
    strict_strtoul ['4', '2', '9', '4', '9', '6', '7', '2', '9', '6'] 10 = (.ok (), 0) ∧
      Denotes 10 ['4', '2', '9', '4', '9', '6', '7', '2', '9', '6'] 4294967296 ∧
      strict_strtoul ['0', 'x'] 16 = (.ok (), 0) ∧ ∀ v, ¬Denotes 16 ['0', 'x'] v := by
  refine ⟨by decide +kernel, ⟨[], ['4', '2', '9', '4', '9', '6', '7', '2', '9', '6'], [], 10, rfl,
    .plain (by decide), by decide, all_eq_true.mp (by decide +kernel), .inl rfl, by decide +kernel⟩,
    Bare.accepted ⟨'x', [], .inl rfl, .inl rfl, rfl⟩⟩

end Nubernel.Vsprintf
