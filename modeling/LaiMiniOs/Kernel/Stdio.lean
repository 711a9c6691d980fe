import Mathlib.Data.Nat.Digits.Defs
import LaiMiniOs.Foundation.Memory

/-! `vsprintf` and `itoa` of `kernel/stdio.c`, and `put_int` of `kernel/print.S`.

The output goes to a buffer through a pointer that moves on. Only `%s`, by its `strcpy`, puts a zero
behind what it stores. -/

set_option autoImplicit false

namespace LaiMiniOs
open Foundation

structure Out where
  buf : Memory
  ptr : Nat

namespace Out
variable {o o' o'' : Out} {text text' : List Byte} {ends ends' : Bool}

def put (o : Out) (c : Byte) : Out := ⟨Function.update o.buf o.ptr c, o.ptr + 1⟩

def puts (o : Out) (text : List Byte) : Out := text.foldl put o

def strcpy (o : Out) (text : List Byte) : Out :=
  { o.puts text with buf := Function.update (o.puts text).buf (o.puts text).ptr 0 }

end Out

def digitChar (m : Nat) : Byte := BitVec.ofNat 8 (if m < 10 then m + 0x30 else m - 10 + 0x41)

/-- `itoa`; each call divides the value, so that `fuel` above the value suffices. -/
def itoa (base : Nat) : Nat → Nat → Out → Out
  | 0, _, o => o
  | fuel + 1, value, o => (if value / base ≠ 0 then itoa base fuel (value / base) o else o).put
      (digitChar (value % base))

/-- The canonical numeral: the digits of the value, the highest first, and `0` for 0. -/
def numeral (base value : Nat) : List Byte :=
  if value = 0 then [digitChar 0] else (Nat.digits base value).reverse.map digitChar

inductive Arg where
  | str (text : List Byte)
  | chr (c : Byte)
  | int (w : Word)

def percent : Byte := 0x25
def specS : Byte := 0x73
def specC : Byte := 0x63
def specD : Byte := 0x64
def specX : Byte := 0x78

/-- The switch over the character behind `%`; `none` for another character or another kind of argument. -/
def specify (spec : Byte) (arg : Arg) (o : Out) : Option Out :=
  match arg with
  | .str text => if spec = specS then some (o.strcpy text) else none
  | .chr c => if spec = specC then some (o.put c) else none
  | .int w =>
    if spec = specD then
      let (w, o) := if w.slt 0 then (0 - w, o.put 0x2d) else (w, o)
      some (itoa 10 (w.toNat + 1) w.toNat o)
    else if spec = specX then some (itoa 16 (w.toNat + 1) w.toNat o) else none

/-- The loop of `vsprintf` over a format of ordinary characters and the four specifiers with their
arguments; the flag tells that a `%` was read. -/
def vsprintfFrom : Bool → List Byte → List Arg → Out → Option Out
  | false, [], _, o => some o
  | false, c :: format, args, o => if c ≠ percent then vsprintfFrom false format args (o.put c)
      else vsprintfFrom true format args o
  | true, spec :: format, arg :: args, o => (specify spec arg o).bind (vsprintfFrom false format args)
  | true, _, _, _ => none

def strlenFrom (m : Memory) : Nat → Nat → Option Nat
  | 0, _ => none
  | fuel + 1, i => if m i = 0 then some i else strlenFrom m fuel (i + 1)

def vsprintf (buf : Memory) (format : List Byte) (args : List Arg) : Option Memory :=
  (vsprintfFrom false format args ⟨buf, 0⟩).map Out.buf

def expandSpec (spec : Byte) : Arg → Option (List Byte)
  | .str text => if spec = specS then some text else none
  | .chr c => if spec = specC then some [c] else none
  | .int w =>
    if spec = specD then some (if w.toInt < 0 then 0x2d :: numeral 10 w.toInt.natAbs else numeral 10 w.toInt.natAbs)
    else if spec = specX then some (numeral 16 w.toNat) else none

def expand : Bool → List Byte → List Arg → Option (List Byte)
  | false, [], _ => some []
  | false, c :: format, args => if c ≠ percent then (expand false format args).map (c :: ·) else expand true format args
  | true, spec :: format, arg :: args => (expandSpec spec arg).bind fun text =>
      (expand false format args).map (text ++ ·)
  | true, _, _ => none

def endsInStr : Bool → List Byte → Bool
  | _, [] => false
  | false, c :: format => if c ≠ percent then endsInStr false format else endsInStr true format
  | true, spec :: format => if format = [] then spec = specS else endsInStr false format

theorem numeral_step {base value : Nat} (two : 2 ≤ base) (more : value / base ≠ 0) :
    numeral base value = numeral base (value / base) ++ [digitChar (value % base)] := by
  have pos : 0 < value := Nat.pos_of_ne_zero fun zero => more (by rw [zero]; exact Nat.zero_div _)
  rw [numeral, numeral, if_neg (by omega), if_neg more, Nat.digits_def' two pos, List.reverse_cons, List.map_append]
  rfl

theorem numeral_digit {base value : Nat} (two : 2 ≤ base) (last : value / base = 0) :
    numeral base value = [digitChar (value % base)] := by
  have small : value < base := (Nat.div_eq_zero_iff_lt (by omega)).mp last
  rw [numeral, Nat.mod_eq_of_lt small]
  split
  · next zero => rw [zero]
  · next pos => rw [Nat.digits_of_lt base value pos small]; rfl

theorem numeral_ne_nil (base value : Nat) : numeral base value ≠ [] := by
  unfold numeral
  split
  · exact List.cons_ne_nil _ _
  · next pos => simpa [Nat.digits_eq_nil_iff_eq_zero] using pos

theorem itoa_eq {base : Nat} (two : 2 ≤ base) {fuel value : Nat} (enough : value < fuel) (o : Out) :
    itoa base fuel value o = o.puts (numeral base value) := by
  induction fuel generalizing value o with
  | zero => exact absurd enough (Nat.not_lt_zero _)
  | succ fuel ih =>
    rw [itoa]
    by_cases last : value / base = 0
    · rw [if_neg (not_not.mpr last), numeral_digit two last]
      rfl
    · have less : value / base < value :=
        Nat.div_lt_self (Nat.pos_of_ne_zero fun zero => last (by rw [zero]; exact Nat.zero_div _)) two
      rw [if_pos last, ih (by omega), numeral_step two last, Out.puts, Out.puts, List.foldl_append]
      rfl

/-- `text` was stored from the old pointer to the new one, and `ends` tells whether a zero was put behind it. -/
structure Out.Printed (o o' : Out) (text : List Byte) (ends : Bool) : Prop where
  ptr : o'.ptr = o.ptr + text.length
  below : ∀ i, i < o.ptr → o'.buf i = o.buf i
  chars : ∀ i, i < text.length → o'.buf (o.ptr + i) = text.getD i 0
  last : o'.buf o'.ptr = if ends then 0 else o.buf o'.ptr
  above : ∀ i, o'.ptr < i → o'.buf i = o.buf i

namespace Out.Printed
variable {o o' o'' : Out} {text text' : List Byte} {ends ends' : Bool}

theorem append (p : Printed o o' text ends) (q : Printed o' o'' text' ends') :
    Printed o o'' (text ++ text') (ends' || (ends && text'.isEmpty)) := by
  obtain ⟨ptr, below, chars, last, above⟩ := p
  obtain ⟨ptr', below', chars', last', above'⟩ := q
  refine ⟨by rw [ptr', ptr, List.length_append, Nat.add_assoc], fun i low => by rw [below' i (by omega), below i low],
    fun i low => ?_, ?_,
    fun i high => by rw [above' i high, above i (by omega)]⟩
  · rw [List.length_append] at low
    by_cases first : i < text.length
    · rw [below' _ (by omega), chars i first]
      grind
    · have here := chars' (i - text.length) (by omega)
      rw [ptr, Nat.add_assoc, Nat.add_sub_cancel' (Nat.le_of_not_lt first)] at here
      rw [here]
      grind
  · rw [last']
    cases ends' with
    | true => rfl
    | false =>
      cases text' with
      | nil =>
        rw [show o''.ptr = o'.ptr by simpa using ptr']
        simpa using last
      | cons c text' =>
        rw [List.length_cons] at ptr'
        simpa using above _ (by omega)

theorem put (o : Out) (c : Byte) : Printed o (o.put c) [c] false := by
  refine ⟨rfl, fun i low => Function.update_of_ne (by omega) _ _, fun i low =>
    ?_, Function.update_of_ne (Nat.succ_ne_self _) _ _,
    fun i high => Function.update_of_ne (by dsimp only [Out.put] at high; omega) _ _⟩
  obtain rfl : i = 0 := by simpa using low
  exact Function.update_self _ _ _

theorem puts (o : Out) (text : List Byte) : Printed o (o.puts text) text false := by
  induction text generalizing o with
  | nil => exact ⟨rfl, fun _ _ => rfl, fun i low => absurd low (Nat.not_lt_zero i), rfl, fun _ _ => rfl⟩
  | cons c text ih => exact (put o c).append (ih (o.put c))

theorem strcpy (o : Out) (text : List Byte) : Printed o (o.strcpy text) text true := by
  obtain ⟨ptr, below, chars, -, above⟩ := puts o text
  exact ⟨ptr, fun i low => (Function.update_of_ne (by omega) _ _).trans (below i low), fun i low =>
    (Function.update_of_ne (by omega) _ _).trans (chars i low),
    Function.update_self _ _ _, fun i high => (Function.update_of_ne (Nat.ne_of_gt high) _ _).trans (above i high)⟩

end Out.Printed

theorem specify_decimal (w : Word) (o : Out) :
    specify specD (.int w) o =
      some (o.puts (if w.toInt < 0 then 0x2d :: numeral 10 w.toInt.natAbs else numeral 10 w.toInt.natAbs)) := by
  rw [specify, if_pos rfl]
  simp only [itoa_eq (show 2 ≤ 10 by decide) (Nat.lt_succ_self _)]
  have value := BitVec.toInt_eq_toNat_cond w
  have bound := w.isLt
  by_cases negative : w.toInt < 0
  · have minus : (0 - w).toNat = w.toInt.natAbs := by
      rw [BitVec.toNat_sub, show BitVec.toNat (0 : Word) = 0 from rfl]
      split at value <;> omega
    rw [if_pos negative, if_pos (by simpa [BitVec.slt] using negative), minus]
    rfl
  · have plus : w.toNat = w.toInt.natAbs := by split at value <;> omega
    rw [if_neg negative, if_neg (by simpa [BitVec.slt] using negative), ← plus]

theorem specify_hex (w : Word) (o : Out) : specify specX (.int w) o = some (o.puts (numeral 16 w.toNat)) := by
  rw [specify, if_neg (by decide), if_pos rfl, itoa_eq (by decide) (Nat.lt_succ_self _)]

theorem specify_printed {spec : Byte} {arg : Arg} {text : List Byte} (expands : expandSpec spec arg = some text)
    (o : Out) :
    ∃ o', specify spec arg o = some o' ∧ o.Printed o' text (spec = specS) := by
  cases arg with
  | str t =>
    obtain ⟨rfl, same⟩ := Option.ite_none_right_eq_some.mp expands
    cases same
    exact ⟨_, by rw [specify, if_pos rfl], .strcpy o _⟩
  | chr c =>
    obtain ⟨rfl, same⟩ := Option.ite_none_right_eq_some.mp expands
    cases same
    exact ⟨_, by rw [specify, if_pos rfl], .put o c⟩
  | int w =>
    rw [expandSpec] at expands
    split at expands
    · next d =>
      subst d
      cases expands
      exact ⟨_, specify_decimal w o, .puts o _⟩
    · obtain ⟨rfl, same⟩ := Option.ite_none_right_eq_some.mp expands
      cases same
      exact ⟨_, specify_hex w o, .puts o _⟩

theorem expandSpec_ne_nil {spec : Byte} {arg : Arg} {text : List Byte} (expands : expandSpec spec arg = some text)
    (other : spec ≠ specS) : text ≠ [] := by
  have some := numeral_ne_nil
  cases arg with
  | str t => exact absurd (Option.ite_none_right_eq_some.mp expands).1 other
  | chr c => grind [expandSpec]
  | int w => grind [expandSpec]

variable {flag : Bool} {format : List Byte} {args : List Arg} {text : List Byte}

theorem expand_ne_nil (expands : expand flag format args = some text) (some : format ≠ [])
    (last : endsInStr flag format = false) : text ≠ [] := by
  fun_induction expand flag format args generalizing text with
  | case1 => exact absurd rfl some
  | case2 c format args other ih =>
    obtain ⟨later, -, rfl⟩ := Option.map_eq_some_iff.mp expands
    exact List.cons_ne_nil _ _
  | case3 c format args other ih =>
    rw [endsInStr, if_neg other] at last
    refine ih expands ?_ last
    rintro rfl
    cases expands
  | case4 spec format arg args ih =>
    obtain ⟨first, expands₁, rest⟩ := Option.bind_eq_some_iff.mp expands
    obtain ⟨later, expands₂, rfl⟩ := Option.map_eq_some_iff.mp rest
    rw [endsInStr] at last
    split at last
    · exact List.append_ne_nil_of_left_ne_nil (expandSpec_ne_nil expands₁ (by simpa using last)) _
    · next more => exact List.append_ne_nil_of_right_ne_nil _ (ih expands₂ more last)
  | case5 => cases expands

theorem vsprintfFrom_printed (expands : expand flag format args = some text) (o : Out) :
    ∃ o', vsprintfFrom flag format args o = some o' ∧ o.Printed o' text (endsInStr flag format) := by
  fun_induction expand flag format args generalizing text o with
  | case1 =>
    cases expands
    exact ⟨o, rfl, .puts o []⟩
  | case2 c format args other ih =>
    obtain ⟨later, rest, rfl⟩ := Option.map_eq_some_iff.mp expands
    obtain ⟨o', run, printed⟩ := ih rest (o.put c)
    refine ⟨o', by rw [vsprintfFrom, if_pos other, run], ?_⟩
    have both := (Out.Printed.put o c).append printed
    rw [Bool.false_and, Bool.or_false] at both
    rw [endsInStr, if_pos other]
    exact both
  | case3 c format args other ih =>
    rw [vsprintfFrom, endsInStr, if_neg other, if_neg other]
    exact ih expands o
  | case4 spec format arg args ih =>
    obtain ⟨first, expands₁, rest⟩ := Option.bind_eq_some_iff.mp expands
    obtain ⟨later, expands₂, rfl⟩ := Option.map_eq_some_iff.mp rest
    obtain ⟨o₁, run₁, printed₁⟩ := specify_printed expands₁ o
    obtain ⟨o', run₂, printed₂⟩ := ih expands₂ o₁
    refine ⟨o', by rw [vsprintfFrom, run₁, Option.bind_some, run₂], ?_⟩
    have both := printed₁.append printed₂
    rw [endsInStr]
    split
    · next none =>
      subst none
      cases expands₂
      simpa [endsInStr] using both
    · next more =>
      have some := expand_ne_nil expands₂ more
      cases last : endsInStr false format with
      | true => simpa [last] using both
      | false => simpa [last, List.isEmpty_eq_false_iff.mpr (some last)] using both
  | case5 => cases expands

theorem strlenFrom_eq {m : Memory} {fuel i n : Nat} (ends : m (i + n) = 0) (plain : ∀ k, k < n → m (i + k) ≠ 0)
    (enough : n < fuel) :
    strlenFrom m fuel i = some (i + n) := by
  induction fuel generalizing i n with
  | zero => exact absurd enough (Nat.not_lt_zero _)
  | succ fuel ih =>
    cases n with
    | zero => exact if_pos ends
    | succ n =>
      rw [strlenFrom, if_neg (show m i ≠ 0 from plain 0 (Nat.succ_pos _)),
        @ih (i + 1) n (by rw [← ends]; congr 1; omega)
        (fun k low => by have := plain (k + 1) (by omega); rwa [Nat.add_assoc, Nat.add_comm 1]) (by omega)]
      exact congrArg some (by omega)

/-- `vsprintf` leaves its expansion in the buffer; it is terminated there, and its length is returned,
exactly when the format ends in `%s` or the byte behind the expansion was zero before. -/
theorem vsprintf_exact_iff {format : List Byte} {args : List Arg} {text : List Byte}
    (expands : expand false format args = some text)
    (plain : (0 : Byte) ∉ text) (buf : Memory) :
    ∃ m, vsprintf buf format args = some m ∧ (∀ i, i < text.length → m i = text.getD i 0) ∧
      (m text.length = 0 ∧ (∃ fuel, strlenFrom m fuel 0 = some text.length) ↔ endsInStr false format = true ∨
      buf text.length = 0) := by
  obtain ⟨o', run, printed⟩ := vsprintfFrom_printed expands ⟨buf, 0⟩
  have chars (i : Nat) (low : i < text.length) : o'.buf i = text.getD i 0 := by
    have here := printed.chars i low
    rwa [Nat.zero_add] at here
  have last := printed.last
  rw [show o'.ptr = text.length from printed.ptr.trans (Nat.zero_add _)] at last
  refine ⟨o'.buf, by rw [vsprintf, run]; rfl, chars, ?_⟩
  have ends : o'.buf text.length = 0 ↔ endsInStr false format = true ∨ buf text.length = 0 := by
    rw [last]
    cases endsInStr false format <;> simp
  rw [← ends]
  refine and_iff_left_of_imp fun zero => ⟨text.length + 1, ?_⟩
  rw [strlenFrom_eq (n := text.length) (by rw [Nat.zero_add]; exact zero) (fun k low => ?_) (Nat.lt_succ_self _),
    Nat.zero_add]
  rw [Nat.zero_add, chars k low]
  grind

theorem vsprintf_exact_pair : ∃ m, vsprintf (fun _ => 0xff) [percent, specD, 0x3a, percent, specS]
    [.int (-5), .str [0x6f, 0x6b]] = some m ∧ m 5 = 0 := by
  obtain ⟨m, run, -, exact_⟩ :=
    @vsprintf_exact_iff [percent, specD, 0x3a, percent, specS] [.int (-5), .str [0x6f, 0x6b]]
    [0x2d, 0x35, 0x3a, 0x6f, 0x6b] (by decide) (by decide) fun _ => 0xff
  exact ⟨m, run, (exact_.mpr (.inl (by decide))).1⟩

/-- `%d` of 7 in a buffer of ones is not terminated, and in a cleared buffer it is. -/
theorem vsprintf_unterminated : ∃ m m', vsprintf (fun _ => 1) [percent, specD] [.int 7] = some m ∧
    vsprintf (fun _ => 0) [percent, specD] [.int 7] = some m' ∧
    m 1 ≠ 0 ∧ m' 1 = 0 := ⟨_, _, rfl, rfl, by decide, by decide⟩

def charDigit (c : Byte) : Nat := if c.toNat < 0x41 then c.toNat - 0x30 else c.toNat - 0x41 + 10

def readNumeral (base : Nat) (text : List Byte) : Nat := text.foldl (fun n c => n * base + charDigit c) 0

/-- The text is the numeral of the value: only `0` itself begins with `0`. -/
structure Canonical (base value : Nat) (text : List Byte) : Prop where
  digits : text ≠ [] ∧ ∀ c ∈ text, ∃ d < base, c = digitChar d
  leading : text.head? = some (digitChar 0) → text = [digitChar 0]
  reads : readNumeral base text = value

theorem charDigit_digitChar : ∀ d < 16, charDigit (digitChar d) = d := by decide

theorem numeral_canonical {base : Nat} (two : 2 ≤ base) (small : base ≤ 16) (value : Nat) :
    Canonical base value (numeral base value) := by
  induction value using Nat.strong_induction_on with
  | _ value ih =>
    have digit : value % base < base := Nat.mod_lt _ (by omega)
    have read := charDigit_digitChar _ (Nat.lt_of_lt_of_le digit small)
    by_cases last : value / base = 0
    · have same := Nat.div_add_mod value base
      rw [last, Nat.mul_zero, Nat.zero_add] at same
      rw [numeral_digit two last]
      refine ⟨⟨List.cons_ne_nil _ _, fun c member => ⟨_, digit, List.mem_singleton.mp member⟩⟩, fun zero => ?_, ?_⟩
      · rw [Option.some.inj zero]
      · rw [same] at read ⊢
        simp [readNumeral, read]
    · have pos : 0 < value := Nat.pos_of_ne_zero fun zero => last (by rw [zero]; exact Nat.zero_div _)
      obtain ⟨⟨full, digits⟩, leading, reads⟩ := ih _ (Nat.div_lt_self pos two)
      rw [numeral_step two last]
      refine ⟨⟨by simp, fun c member => ?_⟩, fun zero => ?_, ?_⟩
      · exact (List.mem_append.mp member).elim (digits c) fun here => ⟨_, digit, List.mem_singleton.mp here⟩
      · -- The digits before the last one read as a value that is not 0.
        rw [List.head?_append, Option.or_of_isSome (List.isSome_head?.mpr full)] at zero
        rw [leading zero] at reads
        exact absurd reads.symm (by simpa [readNumeral, charDigit_digitChar 0] using last)
      · rw [readNumeral] at reads ⊢
        rw [List.foldl_append, reads, List.foldl_cons, List.foldl_nil, read, Nat.mul_comm]
        exact Nat.div_add_mod value base

def hexChar (edx : Word) : Byte := (if BitVec.slt 9 edx then edx - 10 + 0x41 else edx + 0x30).setWidth 8

/-- `.16based_4bits`: `put_int_buffer` is filled from its end, and `buf` is what is behind `edi`. -/
def put16based4bits : Nat → Word → List Byte → List Byte
  | 0, _, buf => buf
  | ecx + 1, eax, buf => put16based4bits ecx (eax >>> 4) (hexChar (eax &&& 0xf) :: buf)

/-- `.skip_prefix_0` and `.put_each_num`: what is printed of the rest of the buffer. -/
def skipPrefix0 : List Byte → List Byte
  | [] => [0x30]
  | cl :: rest => if cl = 0x30 then skipPrefix0 rest else cl :: rest

def putInt (w : Word) : List Byte := skipPrefix0 (put16based4bits 8 w [])

theorem hexChar_eq (w : Word) : hexChar (w &&& 0xf) = digitChar (w.toNat % 16) := by
  have chars : ∀ d < 16, hexChar (BitVec.ofNat 32 d) = digitChar d := by decide
  have low : (w &&& 0xf).toNat = w.toNat % 16 := (BitVec.toNat_and _ _).trans (Nat.and_two_pow_sub_one_eq_mod w.toNat 4)
  rw [← chars _ (Nat.mod_lt _ (by decide)), ← low, BitVec.ofNat_toNat, BitVec.setWidth_eq]

theorem skipPrefix0_put {n : Nat} {w : Word} (short : w.toNat < 16 ^ n) (buf : List Byte) :
    skipPrefix0 (put16based4bits n w buf) = if w.toNat = 0 then skipPrefix0 buf else numeral 16 w.toNat ++ buf := by
  induction n generalizing w buf with
  | zero => rw [put16based4bits, if_pos (by omega)]
  | succ n ih =>
    have shift : (w >>> 4).toNat = w.toNat / 16 := by rw [BitVec.toNat_ushiftRight, Nat.shiftRight_eq_div_pow]
    rw [put16based4bits, ih (by rw [shift]; omega), shift, hexChar_eq]
    by_cases last : w.toNat / 16 = 0
    · rw [if_pos last, numeral_digit (by decide) last, skipPrefix0, Nat.mod_eq_of_lt (by omega)]
      have only : digitChar w.toNat = 0x30 ↔ w.toNat = 0 := by
        have chars : ∀ d < 16, digitChar d = 0x30 ↔ d = 0 := by decide
        exact chars _ (by omega)
      simp only [only]
      rfl
    · rw [if_neg last, if_neg (by omega), numeral_step (by decide) last, List.append_assoc]
      rfl

theorem putInt_eq (w : Word) : putInt w = numeral 16 w.toNat := by
  rw [putInt, skipPrefix0_put (by have := w.isLt; omega)]
  split
  · next zero => rw [zero]; rfl
  · rw [List.append_nil]

/-- `itoa` stores the canonical numeral and moves on by its length; so `%d` stores the signed decimal,
also of the least integer, and `%x` stores what `put_int` prints. -/
theorem itoa_canonical (w : Word) (o : Out) :
    (∀ base ∈ [10, 16], ∃ text, Canonical base w.toNat text ∧ itoa base (w.toNat + 1) w.toNat o = o.puts text ∧
      (o.puts text).ptr = o.ptr + text.length) ∧
    (∃ text, Canonical 10 w.toInt.natAbs text ∧
    specify specD (.int w) o = some (o.puts (if w.toInt < 0 then 0x2d :: text else text))) ∧
    specify specX (.int w) o = some (o.puts (putInt w)) := by
  refine ⟨fun base member => ?_, ⟨_, numeral_canonical (by decide) (by decide) _, specify_decimal w o⟩, ?_⟩
  · have range : 2 ≤ base ∧ base ≤ 16 := by
      have : base = 10 ∨ base = 16 := by simpa using member
      omega
    exact ⟨_, numeral_canonical range.1 range.2 _, itoa_eq range.1 (Nat.lt_succ_self _) o, (Out.Printed.puts o _).ptr⟩
  · rw [putInt_eq, specify_hex]

end LaiMiniOs
