import Nubernel.Vsprintf.Model

/-! # vsprintf: bounded output

The output into a buffer is compared with the unlimited one. As long as the pointer
does not run over the end of the address space, what is in the buffer is the beginning
of the unlimited output.
-/

open List Nat Option

namespace Nubernel.Vsprintf

/-! ## Unlimited output -/

/-- All characters are kept. -/
def unlimited : Sink (List Char) where
  literal l o := some (o ++ l)
  chars l o := some (o ++ l)

/-- What a format prints with unlimited room. -/
def printed {σ : Type} (src : Source σ) (pointer : List Char → Nat → Spec → List Char)
    (fmt : List Char) (args : σ) : Option (List Char) :=
  printf_loop src pointer unlimited (rounds fmt) fmt {} args []

/-- The characters of an action. -/
def Action.out : Action → List Char
  | .literal l => l
  | .chars l => l
  | .skip => []

theorem run_unlimited (a : Action) (out : List Char) : a.run unlimited out = some (out ++ a.out) := by
  cases a with
  | literal l => rfl
  | chars l => rfl
  | skip => exact congrArg some (append_nil out).symm

/-! ## The buffer -/

/-- The output so far is in the buffer, up to its end, and nothing else has changed. -/
structure Wrote (mem : Nat → Char) (buf end_ : Nat) (out : List Char) (o : Out) : Prop where
  str : o.str = buf + out.length
  mem : ∀ a, o.mem a =
    if buf ≤ a ∧ a < end_ ∧ a < buf + out.length then out.getD (a - buf) NUL else mem a

section buffer
variable {mem : Nat → Char} {buf end_ : Nat} {out : List Char} {o : Out}

theorem Wrote.nil : Wrote mem buf end_ [] { mem := mem, str := buf } := by
  refine ⟨rfl, ?_⟩
  intro a
  rw [if_neg]
  rintro ⟨hle, _, hlt⟩
  exact absurd hlt (not_lt.mpr hle)

variable {l : List Char}

/-- Characters from the old output or from the new one. -/
theorem getD_append {i : Nat} :
    (out ++ l).getD i NUL = if i < out.length then out.getD i NUL else l.getD (i - out.length) NUL := by
  split
  · rename_i hlt
    exact List.getD_append out l NUL i hlt
  rename_i hge
  exact getD_append_right out l NUL i (not_lt.mp hge)

section
variable (h : Wrote mem buf end_ out o)
include h

theorem Wrote.put {c : Char} (hroom : buf + out.length + 1 < 2 ^ 32) :
    Wrote mem buf end_ (out ++ [c]) (put end_ o c) := by
  have hstr := h.str
  have hlen : (out ++ [c]).length = out.length + 1 := by simp
  refine ⟨?_, ?_⟩
  · show add32 o.str 1 = _
    rw [hstr, add32_eq hroom, hlen]
    omega
  intro a
  show (if o.str < end_ then store o.mem o.str c else o.mem) a = _
  rw [getD_append, hlen]
  by_cases ha : a = o.str
  · by_cases hlt : o.str < end_
    · rw [if_pos hlt, if_pos ⟨by omega, by omega, by omega⟩, if_neg (by omega)]
      unfold store
      rw [if_pos ha, show a - buf - out.length = 0 by omega]
      rfl
    rw [if_neg hlt, h.mem, if_neg (by omega), if_neg (by omega)]
  have hold : (if o.str < end_ then store o.mem o.str c else o.mem) a = o.mem a := by
    split
    · exact if_neg ha
    · rfl
  rw [hold, h.mem]
  by_cases hin : buf ≤ a ∧ a < end_ ∧ a < buf + out.length
  · rw [if_pos hin, if_pos ⟨hin.1, hin.2.1, by omega⟩, if_pos (by omega)]
  rw [if_neg hin, if_neg]
  omega

theorem Wrote.chars (hroom : buf + (out ++ l).length < 2 ^ 32) :
    Wrote mem buf end_ (out ++ l) (l.foldl (Vsprintf.put end_) o) := by
  induction l generalizing out o with
  | nil =>
    rw [append_nil]
    exact h
  | cons c l ih => ?_
  have hassoc : out ++ c :: l = (out ++ [c]) ++ l := by simp
  rw [length_append, length_cons] at hroom
  rw [hassoc, foldl_cons]
  refine ih (h.put (by omega)) ?_
  rw [length_append, length_append]
  show buf + (out.length + 1 + l.length) < 2 ^ 32
  omega

theorem Wrote.literal (hend : end_ < 2 ^ 32) (hnear : end_ < buf + 2 ^ 31)
    (hroom : buf + (out ++ l).length < 2 ^ 32) :
    ∃ o', copy_literal end_ l o = some o' ∧ Wrote mem buf end_ (out ++ l) o' := by
  have hstr := h.str
  rw [length_append] at hroom
  have hadd : add32 o.str l.length = buf + (out ++ l).length := by
    rw [add32_eq (by omega), length_append]
    omega
  unfold copy_literal
  by_cases hlt : o.str < end_
  · have hsub : sub32 end_ o.str = end_ - o.str := sub32_eq hend (le_of_lt hlt)
    rw [if_pos hlt, hsub, if_neg (by omega)]
    refine ⟨_, rfl, hadd, ?_⟩
    intro a
    show memcpy o.mem o.str (l.take (end_ - o.str)) a = _
    unfold memcpy
    rw [getD_append, length_take, length_append]
    by_cases hin : buf ≤ a ∧ a < end_ ∧ a < buf + out.length
    · rw [if_neg (by omega), h.mem, if_pos hin, if_pos (by omega), if_pos (by omega)]
    by_cases hnew : o.str ≤ a ∧ a < o.str + min (end_ - o.str) l.length
    · rw [if_pos hnew, if_pos ⟨by omega, by omega, by omega⟩, if_neg (by omega),
        show a - buf - out.length = a - o.str by omega]
      rw [getD_eq_getElem?_getD, getD_eq_getElem?_getD, List.getElem?_take_of_lt (by omega)]
    rw [if_neg hnew, h.mem, if_neg hin, if_neg (by omega)]
  rw [if_neg hlt]
  refine ⟨_, rfl, hadd, ?_⟩
  intro a
  rw [h.mem, getD_append, length_append]
  by_cases hin : buf ≤ a ∧ a < end_ ∧ a < buf + out.length
  · rw [if_pos hin, if_pos (by omega), if_pos (by omega)]
  · rw [if_neg hin, if_neg (by omega)]

theorem Wrote.run {a : Action} (hend : end_ < 2 ^ 32) (hnear : end_ < buf + 2 ^ 31)
    (hroom : buf + (out ++ a.out).length < 2 ^ 32) :
    ∃ o', a.run (buffer end_) o = some o' ∧ Wrote mem buf end_ (out ++ a.out) o' := by
  cases a with
  | literal l => exact h.literal hend hnear hroom
  | chars l => exact ⟨_, rfl, h.chars hroom⟩
  | skip =>
    refine ⟨o, rfl, ?_⟩
    rw [Action.out, append_nil]
    exact h

end

end buffer

/-! ## The format is read to its end -/

/-- The last token was a `*`. -/
def Spec.Pending (spec : Spec) : Prop := spec.type = .WIDTH ∨ spec.type = .PRECISION

instance (spec : Spec) : Decidable spec.Pending := inferInstanceAs (Decidable (_ ∨ _))

/-- An upper bound for the rounds that are left. -/
def left (fmt : List Char) (spec : Spec) : Nat := 2 * fmt.length + if spec.Pending then 1 else 0

theorem left_lt_rounds (fmt : List Char) : left fmt {} < rounds fmt := by
  unfold left rounds
  split <;> omega

section decode

theorem skip_atoi_length (i : Nat) (fmt : List Char) : (skip_atoi i fmt).2.length ≤ fmt.length := by
  induction fmt generalizing i with
  | nil => exact le_refl _
  | cons c fmt ih => ?_
  rw [skip_atoi]
  split
  · exact le_succ_of_le (ih _)
  · exact le_refl _

theorem decode_flags_length (flags : Flags) (fmt : List Char) :
    (decode_flags flags fmt).2.length ≤ fmt.length := by
  induction fmt generalizing flags with
  | nil => exact le_refl _
  | cons c fmt ih =>
    rw [decode_flags]
    repeat' split
    all_goals first | exact le_succ_of_le (ih _) | exact le_refl _

theorem integer_type_not_pending (q : Option Char) (flags : Flags) :
    ¬(integer_type q flags = .WIDTH ∨ integer_type q flags = .PRECISION) := by
  unfold integer_type
  repeat' split
  all_goals decide

section
variable (spec : Spec) (fmt : List Char)
include spec fmt

/-- The conversion character ends a token. -/
theorem decode_conversion_spec :
    (decode_conversion spec fmt).2.length ≤ fmt.length ∧
      ¬(decode_conversion spec fmt).1.Pending := by
  cases fmt with
  | nil => exact ⟨le_refl _, by simp [decode_conversion, Spec.Pending]⟩
  | cons c fmt => ?_
  rw [decode_conversion]
  split
  · exact ⟨le_succ _, by simp [Spec.Pending]⟩
  split
  · exact ⟨le_succ _, by simp [Spec.Pending]⟩
  split
  · exact ⟨le_refl _, by simp [Spec.Pending]⟩
  split
  · exact ⟨le_succ _, by simp [Spec.Pending]⟩
  split
  · exact ⟨le_succ _, by simp [Spec.Pending]⟩
  split
  · rename_i _ flags _
    exact ⟨le_succ _, integer_type_not_pending spec.qualifier flags⟩
  exact ⟨le_refl _, by simp [Spec.Pending]⟩

theorem decode_qualifier_spec :
    (decode_qualifier spec fmt).2.length ≤ fmt.length ∧
      ¬(decode_qualifier spec fmt).1.Pending := by
  cases fmt with
  | nil => exact decode_conversion_spec _ _
  | cons c fmt => ?_
  -- `ll` and `hh`
  have htwice : ∀ spec', (decode_conversion spec' fmt.tail).2.length ≤ fmt.length + 1 ∧
      ¬(decode_conversion spec' fmt.tail).1.Pending := by
    intro spec'
    have h := decode_conversion_spec spec' fmt.tail
    rw [length_tail] at h
    exact ⟨by omega, h.2⟩
  rw [decode_qualifier]
  split
  · split
    · exact htwice _
    split
    · exact htwice _
    have h := decode_conversion_spec { spec with qualifier := some c } fmt
    exact ⟨le_succ_of_le h.1, h.2⟩
  exact decode_conversion_spec _ _

/-- A token that ends with a `*` has been read in part. -/
theorem decode_precision_spec :
    (decode_precision spec fmt).2.length ≤ fmt.length ∧
      ((decode_precision spec fmt).1.Pending →
        (decode_precision spec fmt).2.length < fmt.length) := by
  -- Otherwise the token is read to its end.
  have hdone : ∀ spec' fmt', fmt'.length ≤ fmt.length →
      (decode_qualifier spec' fmt').2.length ≤ fmt.length ∧ ((decode_qualifier spec' fmt').1.Pending →
        (decode_qualifier spec' fmt').2.length < fmt.length) := by
    intro spec' fmt' hle
    have h := decode_qualifier_spec spec' fmt'
    exact ⟨le_trans h.1 hle, fun hp => absurd hp h.2⟩
  cases fmt with
  | nil => exact hdone _ _ (le_refl _)
  | cons c fmt => ?_
  unfold decode_precision
  simp only
  split
  · cases fmt with
    | nil => exact hdone _ _ (le_succ _)
    | cons d fmt => ?_
    simp only
    split
    · exact hdone _ _ (le_succ_of_le (skip_atoi_length 0 (d :: fmt)))
    split
    · refine ⟨?_, fun _ => ?_⟩
      · show fmt.length ≤ fmt.length + 2
        omega
      show fmt.length < fmt.length + 2
      omega
    exact hdone _ _ (le_succ _)
  exact hdone _ _ (le_refl _)

theorem decode_width_length :
    (decode_width spec fmt).2.length ≤ fmt.length := by
  cases fmt with
  | nil => exact (decode_precision_spec _ _).1
  | cons c fmt => ?_
  rw [decode_width]
  split
  · exact le_trans (decode_precision_spec _ _).1 (skip_atoi_length 0 (c :: fmt))
  split
  · exact le_succ _
  · exact (decode_precision_spec _ _).1

end

/-- **`format_decode`** reads part of the format or completes a token. -/
theorem format_decode_left (spec : Spec) (c : Char) (fmt : List Char) :
    left (format_decode spec (c :: fmt)).2 (format_decode spec (c :: fmt)).1 <
      left (c :: fmt) spec := by
  have hbit : ∀ s : Spec, (if s.Pending then 1 else 0) ≤ 1 := by
    intro s
    split <;> omega
  by_cases hw : spec.type = .WIDTH
  · have hpend : spec.Pending := .inl hw
    have h := decode_precision_spec (take_width spec) (c :: fmt)
    unfold format_decode left
    rw [if_pos hw, if_pos hpend]
    by_cases hp : (decode_precision (take_width spec) (c :: fmt)).1.Pending
    · have hlt := h.2 hp
      rw [if_pos hp]
      omega
    rw [if_neg hp]
    omega
  by_cases hpr : spec.type = .PRECISION
  · have hpend : spec.Pending := .inr hpr
    have h := decode_qualifier_spec (take_precision spec) (c :: fmt)
    unfold format_decode left
    rw [if_neg hw, if_pos hpr, if_pos hpend, if_neg h.2]
    omega
  -- At least one character is read.
  have hread : (format_decode spec (c :: fmt)).2.length ≤ fmt.length := by
    unfold format_decode
    rw [if_neg hw, if_neg hpr]
    simp only
    split
    · exact le_trans (decode_width_length _ _) (decode_flags_length _ fmt)
    rename_i hc
    rw [dropWhile_cons_of_pos (by simp [hc])]
    exact (dropWhile_suffix _).length_le
  have hb := hbit (format_decode spec (c :: fmt)).1
  unfold left
  rw [length_cons]
  omega

end decode

section loop
variable {σ : Type} {src : Source σ} {pointer : List Char → Nat → Spec → List Char}

theorem convert_left (fmt rest : List Char) (spec : Spec) (args : σ) :
    left (convert src pointer fmt rest spec args).fmt (convert src pointer fmt rest spec args).spec ≤
      left rest spec := by
  have hdrop : (rest.dropWhile isalnum).length ≤ rest.length :=
    (dropWhile_suffix isalnum).length_le
  unfold convert left Spec.Pending
  split
  all_goals first
    | exact le_refl _
    | skip
  exact Nat.add_le_add_right (Nat.mul_le_mul_left 2 hdrop) _

theorem next_token_left (c : Char) (fmt : List Char) (spec : Spec) (args : σ) :
    left (next_token src pointer (c :: fmt) spec args).fmt
        (next_token src pointer (c :: fmt) spec args).spec < left (c :: fmt) spec :=
  lt_of_le_of_lt (convert_left ..) (format_decode_left spec c fmt)

/-- Enough rounds for the format lead to the end of it. -/
theorem printf_loop_total {fuel : Nat} {fmt : List Char} {spec : Spec} {args : σ}
    {out : List Char} (hfuel : left fmt spec < fuel) :
    ∃ out', printf_loop src pointer unlimited fuel fmt spec args out = some out' ∧
      out.length ≤ out'.length := by
  induction fuel generalizing fmt spec args out with
  | zero => omega
  | succ fuel ih => ?_
  cases fmt with
  | nil => exact ⟨out, rfl, le_refl _⟩
  | cons c fmt => ?_
  rw [printf_loop]
  simp only [run_unlimited, bind_some]
  have hleft := @next_token_left σ src pointer c fmt spec args
  obtain ⟨out', heq, hlen⟩ := @ih _ _ (next_token src pointer (c :: fmt) spec args).args
    (out ++ (next_token src pointer (c :: fmt) spec args).action.out)
    (lt_of_lt_of_le hleft (le_of_lt_succ hfuel))
  refine ⟨out', heq, ?_⟩
  rw [length_append] at hlen
  omega

/-- **The loop** into the buffer writes what it prints with unlimited room. -/
theorem printf_loop_wrote {fuel : Nat} {fmt : List Char} {spec : Spec} {args : σ}
    {mem : Nat → Char} {buf end_ : Nat} {out out' : List Char} {o : Out}
    (hfuel : left fmt spec < fuel) (hend : end_ < 2 ^ 32) (hnear : end_ < buf + 2 ^ 31)
    (h : Wrote mem buf end_ out o)
    (hprint : printf_loop src pointer unlimited fuel fmt spec args out = some out')
    (hroom : buf + out'.length < 2 ^ 32) :
    ∃ o', printf_loop src pointer (buffer end_) fuel fmt spec args o = some o' ∧
      Wrote mem buf end_ out' o' := by
  induction fuel generalizing fmt spec args out o with
  | zero => omega
  | succ fuel ih => ?_
  cases fmt with
  | nil =>
    cases hprint
    exact ⟨o, rfl, h⟩
  | cons c fmt => ?_
  rw [printf_loop] at hprint ⊢
  simp only [run_unlimited, bind_some] at hprint ⊢
  have hfuel' := lt_of_lt_of_le (@next_token_left σ src pointer c fmt spec args)
    (le_of_lt_succ hfuel)
  obtain ⟨out₁, heq, hlen⟩ := @printf_loop_total σ src pointer fuel _ _
    (next_token src pointer (c :: fmt) spec args).args
    (out ++ (next_token src pointer (c :: fmt) spec args).action.out) hfuel'
  rw [hprint] at heq
  obtain rfl := Option.some.inj heq
  obtain ⟨o₁, hrun, hwrote⟩ := h.run hend hnear (a := (next_token src pointer (c :: fmt) spec
    args).action) (by omega)
  rw [hrun, bind_some]
  exact ih hfuel' hwrote hprint

theorem put_keeps {end_ : Nat} {c : Char} {o : Out} :
    (put end_ o c).str < 2 ^ 32 ∧ ∀ a ≥ end_, (put end_ o c).mem a = o.mem a := by
  refine ⟨Nat.mod_lt _ (by decide), fun a ha => ?_⟩
  unfold put store
  split
  · exact if_neg (by omega)
  · rfl

theorem run_keeps {end_ : Nat} {a : Action} {o o' : Out} (hend : end_ < 2 ^ 32)
    (hword : o.str < 2 ^ 32) (h : a.run (buffer end_) o = some o') :
    o'.str < 2 ^ 32 ∧ ∀ p ≥ end_, o'.mem p = o.mem p := by
  cases a with
  | literal l =>
    simp only [Action.run, buffer, copy_literal] at h
    split at h
    · split at h
      · cases h
      cases h
      refine ⟨Nat.mod_lt _ (by decide), fun p hp => ?_⟩
      rename_i hlt _
      simp only [memcpy]
      rw [sub32_eq hend (le_of_lt hlt), length_take, if_neg (by omega)]
    cases h
    exact ⟨Nat.mod_lt _ (by decide), fun _ _ => rfl⟩
  | chars l =>
    cases h
    induction l generalizing o with
    | nil => exact ⟨hword, fun _ _ => rfl⟩
    | cons c l ih => ?_
    obtain ⟨hstr, hmem⟩ := @put_keeps end_ c o
    obtain ⟨hstr', hmem'⟩ := ih hstr
    exact ⟨hstr', fun p hp => (hmem' p hp).trans (hmem p hp)⟩
  | skip =>
    cases h
    exact ⟨hword, fun _ _ => rfl⟩

/-- Whatever is printed, nothing is written at the end of the buffer or above. -/
theorem printf_loop_keeps {fuel : Nat} {fmt : List Char} {spec : Spec} {args : σ} {end_ : Nat}
    {o o' : Out} (hend : end_ < 2 ^ 32) (hword : o.str < 2 ^ 32)
    (h : printf_loop src pointer (buffer end_) fuel fmt spec args o = some o') :
    o'.str < 2 ^ 32 ∧ ∀ p ≥ end_, o'.mem p = o.mem p := by
  induction fuel generalizing fmt spec args o with
  | zero => cases h
  | succ fuel ih => ?_
  cases fmt with
  | nil =>
    cases h
    exact ⟨hword, fun _ _ => rfl⟩
  | cons c fmt => ?_
  rw [printf_loop, bind_eq_some_iff] at h
  obtain ⟨o₁, hrun, h⟩ := h
  obtain ⟨hstr, hmem⟩ := run_keeps hend hword hrun
  obtain ⟨hstr', hmem'⟩ := ih hstr h
  exact ⟨hstr', fun p hp => (hmem' p hp).trans (hmem p hp)⟩

theorem printed_total (fmt : List Char) (args : σ) : ∃ out, printed src pointer fmt args = some out := by
  obtain ⟨out, heq, _⟩ := @printf_loop_total σ src pointer (rounds fmt) fmt {} args []
    (left_lt_rounds fmt)
  exact ⟨out, heq⟩

end loop

/-! ## Main theorem -/

/-- What is expected of `vsnprintf` for a size: the number of characters that would be printed
is returned, only the buffer is written to, and it has as many of them as there is room for,
followed by a NUL. -/
def Fills (cstr : Nat → List Char) (pointer : List Char → Nat → Spec → List Char) (buf : Nat)
    (fmt : List Char) (args : List Nat) (out : List Char) (size : Nat) : Prop :=
  ∀ mem, ∃ mem', vsnprintf cstr pointer mem buf size fmt args = some (out.length, mem') ∧
    (∀ a, ¬(buf ≤ a ∧ a < buf + size) → mem' a = mem a) ∧
    (1 ≤ size → mem' (buf + min out.length (size - 1)) = NUL ∧
      ∀ i < min out.length (size - 1), mem' (buf + i) = out.getD i NUL)

/-- The output and its NUL are below the end of the address space. The last address may only
be missing where the buffer is too small to reach it. -/
def Below (buf size n : Nat) : Prop := buf + n + 1 < 2 ^ 32 ∨ (buf + n + 1 = 2 ^ 32 ∧ size ≤ n)

section bounded
variable {buf size n : Nat}

/-- The end of the buffer. -/
theorem limits_spec (hbuf : buf < 2 ^ 32) (hsize : size < 2 ^ 31) :
    (limits buf size = (buf + size, size) ∧ buf + size < 2 ^ 32) ∨
      (limits buf size = (2 ^ 32 - 1, 2 ^ 32 - 1 - buf) ∧ 2 ^ 32 ≤ buf + size) := by
  unfold limits
  by_cases hfits : buf + size < 2 ^ 32
  · rw [add32_eq hfits, if_neg (by omega)]
    exact .inl ⟨rfl, hfits⟩
  have hwrap : add32 buf size < buf := by
    unfold add32
    omega
  rw [if_pos hwrap]
  exact .inr ⟨rfl, by omega⟩

/-- All that is printed below the end and below the final NUL is in the buffer. -/
theorem limits_bounds (hroom : Below buf size n) (hsize : size < 2 ^ 31) :
    (limits buf size).1 < 2 ^ 32 ∧ (limits buf size).1 ≤ buf + size ∧
      ∀ i < min n (size - 1), buf + i < (limits buf size).1 := by
  unfold Below at hroom
  rcases @limits_spec buf size (by omega) hsize with ⟨heq, hfits⟩ | ⟨heq, hwrap⟩
  · rw [heq]
    exact ⟨hfits, le_refl _, fun i hi => by simp only; omega⟩
  rw [heq]
  exact ⟨by simp only; omega, by simp only; omega, fun i hi => by simp only; omega⟩

/-- Where the final NUL goes. -/
theorem terminate_spec {mem : Nat → Char} {out : List Char} {o : Out}
    (hroom : Below buf size out.length) (hsize : size < 2 ^ 31)
    (h : Wrote mem buf (limits buf size).1 out o) :
    terminate (limits buf size).1 (limits buf size).2 o =
      if 1 ≤ size then store o.mem (buf + min out.length (size - 1)) NUL else o.mem := by
  have hstr := h.str
  unfold Below at hroom
  unfold terminate
  rcases @limits_spec buf size (by omega) hsize with ⟨heq, hfits⟩ | ⟨heq, hwrap⟩
  · rw [heq]
    by_cases hone : 1 ≤ size
    · rw [if_pos (show (buf + size, size).2 > 0 from hone), if_pos hone]
      congr 1
      by_cases hlt : o.str < buf + size
      · rw [if_pos hlt]
        omega
      rw [if_neg hlt, sub32_eq hfits (by omega)]
      omega
    rw [if_neg (show ¬(buf + size, size).2 > 0 from hone), if_neg hone]
  rw [heq]
  have hpos : (2 ^ 32 - 1, 2 ^ 32 - 1 - buf).2 > 0 := by
    omega
  rw [if_pos hpos, if_pos (show 1 ≤ size by omega)]
  congr 1
  rw [if_pos (by omega)]
  omega

variable {cstr : Nat → List Char} {pointer : List Char → Nat → Spec → List Char}
  {fmt : List Char} {args : List Nat} {out : List Char}
  (hprint : printed (va_list cstr) pointer fmt args = some out)

include hprint in
theorem fills_of_below (hroom : Below buf size out.length) (hsize : size < 2 ^ 31) :
    Fills cstr pointer buf fmt args out size := by
  intro mem
  obtain ⟨hend, hle, hge⟩ := limits_bounds hroom hsize
  have hlast : buf + out.length < 2 ^ 32 := by
    unfold Below at hroom
    omega
  have hnear : (limits buf size).1 < buf + 2 ^ 31 := by omega
  obtain ⟨o, hloop, hwrote⟩ := @printf_loop_wrote _ (va_list cstr) pointer (rounds fmt) fmt {} args
    mem buf _ [] out _ (left_lt_rounds fmt) hend hnear Wrote.nil hprint hlast
  refine ⟨terminate (limits buf size).1 (limits buf size).2 o, ?_, ?_, ?_⟩
  · unfold vsnprintf format
    rw [if_neg (by omega), hloop, map_some, hwrote.str, sub32_eq (by omega) (by omega),
      Nat.add_sub_cancel_left]
  · intro a ha
    rw [terminate_spec hroom hsize hwrote]
    split
    · unfold store
      rw [if_neg (by omega), hwrote.mem, if_neg (by omega)]
    rw [hwrote.mem, if_neg (by omega)]
  intro hone
  rw [terminate_spec hroom hsize hwrote, if_pos hone]
  refine ⟨if_pos rfl, ?_⟩
  intro i hi
  have hlt := hge i hi
  unfold store
  rw [if_neg (by omega), hwrote.mem, if_pos ⟨by omega, hlt, by omega⟩, Nat.add_sub_cancel_left]

/-- With the pointer behind the end of the address space the NUL is written before the buffer;
with the NUL at the last address it is not written there. -/
theorem below_of_fills (hbuf : buf < 2 ^ 32) (hone : 1 ≤ size) (hsize : size < 2 ^ 31)
    (h : Fills cstr pointer buf fmt args out size) : Below buf size out.length := by
  obtain ⟨mem', heq, hkeep, hbytes⟩ := h fun _ => 'z'
  obtain ⟨hnul, _⟩ := hbytes hone
  have hz : ('z' : Char) ≠ NUL := by decide
  have hlimits := @limits_spec buf size hbuf hsize
  have hend : (limits buf size).1 < 2 ^ 32 := by
    rcases hlimits with ⟨hl, _⟩ | ⟨hl, _⟩ <;> rw [hl] <;> dsimp only <;> omega
  unfold vsnprintf format at heq
  rw [if_neg (by omega), map_eq_some_iff] at heq
  obtain ⟨o, hloop, ho⟩ := heq
  obtain ⟨hlen, rfl⟩ := Prod.mk.inj ho
  obtain ⟨hword, hkept⟩ := printf_loop_keeps hend hbuf hloop
  have hout := hlen ▸ sub32_lt o.str buf
  have hstr : o.str = (buf + out.length) % 2 ^ 32 := by
    unfold sub32 at hlen
    omega
  -- The pointer has not run over the end: the NUL would be written where it points to.
  have hlast : (limits buf size).2 > 0 → buf + out.length < 2 ^ 32 := by
    intro hpos
    refine not_le.mp fun hge => hz ?_
    have hlow : o.str < (limits buf size).1 := by
      rcases hlimits with ⟨hl, _⟩ | ⟨hl, _⟩ <;> rw [hl] <;> dsimp only <;> omega
    rw [← hkeep o.str (by omega), terminate, if_pos hpos, if_pos hlow]
    exact if_pos rfl
  refine not_not.mp fun hnot => hz ?_
  unfold Below at hnot
  rcases hlimits with ⟨hl, _⟩ | ⟨hl, _⟩
  · rw [hl] at hlast
    have := hlast hone
    omega
  -- The place of the NUL is not below the end of the buffer.
  rw [hl] at hlast hkept hnul
  dsimp only at hlast hkept hnul
  have hplace : 2 ^ 32 - 1 ≤ buf + min out.length (size - 1) := by omega
  rw [← hnul, terminate]
  split
  · have := hlast ‹_›
    unfold store
    rw [if_neg (by omega : ¬o.str < 2 ^ 32 - 1), sub32_eq (by omega) (by omega), if_neg (by omega),
      hkept _ hplace]
  · rw [hkept _ hplace]

end bounded

/-- Strings for which no pointer is used. -/
def noStrings : Nat → List Char := fun _ => []

/-- What `%p` prints, where it is not used. -/
def noPointers : List Char → Nat → Spec → List Char := fun _ _ _ => []

end Nubernel.Vsprintf
