import LaiMiniOs.Fs.Path

/-! The commands of `shell/shell.c`: `cmd_parse` and the loop of `my_shell` over a command line.

The words of a command are cut out in place: `argv` holds their offsets in the string, and a zero is
stored behind each. -/

set_option autoImplicit false

namespace LaiMiniOs
open Foundation

def StringAt (m : Memory) (a : Nat) (text : List Byte) : Prop := (∀ i, i < text.length → m (a + i) = text.getD i 0) ∧
  m (a + text.length) = 0

/-- What `cmd_parse` works on: the string, `argv` with the indices stored to, and `argc`. -/
structure CmdParse where
  text : Memory
  argv : Nat → Option Nat
  stores : List Nat
  argc : Nat

def maxArgNr : Nat := 16

/-- The outer loop of `cmd_parse`, with `next` at offset `a` of the string and `rest` from there on. -/
def parseArgs (token : Byte) : Nat → Nat → List Byte → CmdParse → Option (Int × CmdParse)
  | 0, _, _, _ => none
  | fuel + 1, a, rest, p =>
    if rest = [] then some (p.argc, p)
    else
      let a := a + (rest.takeWhile (· = token)).length
      let rest := rest.dropWhile (· = token)
      if rest = [] then some (p.argc, p)
      else
        let p := { p with argv := Function.update p.argv p.argc (some a), stores := p.argc :: p.stores }
        let a := a + (rest.takeWhile (· ≠ token)).length
        let rest := rest.dropWhile (· ≠ token)
        let (p, a, rest) := match rest with
          | [] => (p, a, [])
          | _ :: rest => ({ p with text := Function.update p.text a 0 }, a + 1, rest)
        if maxArgNr < p.argc then some (-1, p)
        else parseArgs token fuel a rest { p with argc := p.argc + 1 }

/-- `cmd_parse` of the string `cmd` at `text`; `old` is what stands around `argv`. -/
def cmdParse (token : Byte) (text : Memory) (old : Nat → Option Nat) (cmd : List Byte) : Option (Int × CmdParse) :=
  parseArgs token (cmd.length + 1) 0 cmd
    ⟨text, fun k => if k < maxArgNr then none else old k, (List.range maxArgNr).reverse, 0⟩

variable {token : Byte} {fuel a : Nat} {rest word : List Byte} {more : List (List Byte)} {p : CmdParse} {m : Memory}

theorem StringAt.drop {text text' : List Byte} (string : StringAt m a (text ++ text')) :
    StringAt m (a + text.length) text' := by
  refine ⟨fun i low => ?_, ?_⟩
  · have byte := string.1 (text.length + i) (by simpa using low)
    grind
  · have zero := string.2
    rwa [List.length_append, ← Nat.add_assoc] at zero

theorem StringAt.congr {m' : Memory} {text : List Byte} (string : StringAt m a text)
    (same : ∀ i, a ≤ i → i ≤ a + text.length → m' i = m i) : StringAt m' a text :=
  ⟨fun i low => by rw [same _ (by omega) (by omega), string.1 i low],
    by rw [same _ (by omega) (Nat.le_refl _), string.2]⟩

theorem parseArgs_none (none : words token rest = []) :
    parseArgs token (fuel + 1) a rest p = some ((p.argc : Int), p) := by
  rcases @words_cases _ _ token rest with ⟨start, -⟩ | ⟨word, later, -, -, -, -, -, names⟩
  · simp [parseArgs, start]
  · rw [none] at names
    cases names

theorem parseArgs_word (string : StringAt p.text a rest) (names : words token rest = word :: more) : ∃ p' a' a'' later,
    (∀ fuel, parseArgs token (fuel + 1) a rest p = if maxArgNr < p.argc then some (-1, p')
    else parseArgs token fuel a'' later { p' with argc := p.argc + 1 }) ∧
    p'.argv = Function.update p.argv p.argc (some a') ∧ p'.stores = p.argc :: p.stores ∧
      (∀ i, i < a → p'.text i = p.text i) ∧
    StringAt p'.text a' word ∧ (∀ i, i ≤ a' + word.length → i < a'' ∨ later = []) ∧ a ≤ a'' ∧
    StringAt p'.text a'' later ∧ words token later = more ∧ later.length < rest.length := by
  rcases @words_cases _ _ token rest with ⟨-, none⟩ | ⟨word', tail, start, first, left, some, ends, names'⟩
  · rw [none] at names
    cases names
  · rw [names'] at names
    obtain ⟨rfl, later_⟩ := List.cons.inj names
    have whole := List.takeWhile_append_dropWhile (p := fun c => decide (c = token)) (l := rest)
    have begin : rest.dropWhile (· = token) ≠ [] :=
      fun none => some (List.append_eq_nil_iff.mp (start.symm.trans none)).1
    have filled : rest ≠ [] := fun none => begin (by rw [none]; rfl)
    have length := congrArg List.length whole
    rw [start, List.length_append, List.length_append] at length
    rw [← whole] at string
    have string := string.drop
    rw [start] at string
    have tail_ := string.drop
    obtain ⟨start_, here⟩ : ∃ n, a + (rest.takeWhile (· = token)).length = n := ⟨_, rfl⟩
    rw [here] at string tail_
    have size := List.length_pos_iff.mpr some
    rcases ends with rfl | ⟨later, rfl⟩
    · refine ⟨⟨p.text, Function.update p.argv p.argc (.some start_), p.argc :: p.stores, p.argc⟩, start_,
        start_ + word'.length, [], fun fuel => ?_, rfl, rfl, fun _ _ => rfl, ?_,
        fun _ _ => .inr rfl, ?_, tail_, later_, List.length_pos_iff.mpr filled⟩
      · simp only [parseArgs, if_neg filled, if_neg begin, first, left, here]
      · simpa using string
      · omega
    · refine ⟨⟨Function.update p.text (start_ + word'.length) 0, Function.update p.argv p.argc (.some start_),
        p.argc :: p.stores, p.argc⟩, start_,
        start_ + word'.length + 1, later, fun fuel => ?_, rfl, rfl, fun i low => ?_, ?_,
        fun i low => .inl (Nat.lt_succ_of_le low), ?_, ?_, ?_, ?_⟩
      · simp only [parseArgs, if_neg filled, if_neg begin, first, left, here]
      · exact Function.update_of_ne (by omega) _ _
      · refine ⟨fun i low => ?_, Function.update_self _ _ _⟩
        have byte := string.1 i (by rw [List.length_append]; omega)
        rw [List.getD_eq_getElem?_getD, List.getElem?_append_left low, ← List.getD_eq_getElem?_getD] at byte
        exact (Function.update_of_ne (by omega) _ _).trans byte
      · omega
      · exact (show StringAt p.text _ ([token] ++ later) from tail_).drop.congr fun i low _ =>
          Function.update_of_ne (by simp only [List.length_singleton] at low; omega) _ _
      · rw [← later_, words_sep]
      · simp only [List.length_cons] at length
        omega

theorem parseArgs_few (string : StringAt p.text a rest) (enough : rest.length < fuel)
    (few : p.argc + (words token rest).length ≤ maxArgNr) :
    ∃ q, parseArgs token fuel a rest p = some (((p.argc + (words token rest).length : Nat) : Int), q) ∧
      (∀ i, i < a ∨ rest = [] → q.text i = p.text i) ∧
      (∀ k ∈ q.stores, k ∈ p.stores ∨ k < maxArgNr) ∧
      (∀ k, k < p.argc ∨ p.argc + (words token rest).length ≤ k → q.argv k = p.argv k) ∧
      ∀ k word, (words token rest)[k]? = some word → ∃ at_, q.argv (p.argc + k) = some at_ ∧
        StringAt q.text at_ word := by
  induction fuel generalizing a rest p with
  | zero => exact absurd enough (Nat.not_lt_zero _)
  | succ fuel ih =>
    cases names : words token rest with
    | nil => exact ⟨p,
        by rw [parseArgs_none names]; rfl, fun _ _ => rfl, fun k member => .inl member, fun _ _ =>
        rfl, fun k word here => by simp at here⟩
    | cons word more =>
      obtain ⟨p', a', a'', later, run, argv, stores, text, string', before, le, string'', names', shorter⟩ :=
        parseArgs_word string names
      rw [names, List.length_cons] at few
      obtain ⟨q, run', text', stores', argv', words'⟩ :=
        @ih a'' later { p' with argc := p.argc + 1 } string'' (by omega) (by rw [names']; dsimp only; omega)
      rw [names'] at run' argv' words'
      dsimp only at run' text' stores' argv' words'
      rw [stores] at stores'
      refine ⟨q, ?_, fun i low => ?_, fun k member => ?_, fun k outside => ?_, fun k w here => ?_⟩
      · rw [run fuel, if_neg (by omega), run', List.length_cons]
        exact congrArg some (Prod.ext (by push_cast; omega) rfl)
      · rcases low with low | none
        · rw [text' i (.inl (by omega)), text i low]
        · rw [none] at shorter
          exact absurd shorter (Nat.not_lt_zero _)
      · rcases stores' k member with here | low
        · rcases List.mem_cons.mp here with rfl | old
          · exact .inr (by omega)
          · exact .inl old
        · exact .inr low
      · rw [List.length_cons] at outside
        rw [argv' k (by omega), argv]
        exact Function.update_of_ne (by omega) _ _
      · cases k with
        | zero =>
          cases here
          refine ⟨a', ?_, string'.congr fun i _ high => text' i (before i high)⟩
          rw [Nat.add_zero, argv' p.argc (.inl (Nat.lt_succ_self _)), argv]
          exact Function.update_self _ _ _
        | succ k =>
          obtain ⟨at_, here', string⟩ := words' k w here
          exact ⟨at_, by rw [← here']; congr 1; omega, string⟩

/-- The word after the sixteenth goes to `argv[16]`, and the result is 17 or more words, or `-1`. -/
theorem parseArgs_many (string : StringAt p.text a rest) (enough : rest.length < fuel) (before : p.argc ≤ maxArgNr)
    (many : maxArgNr < p.argc + (words token rest).length) :
    ∃ argc q, parseArgs token fuel a rest p = some (argc, q) ∧ (argc = -1 ∨ argc = 17) ∧ maxArgNr ∈ q.stores := by
  induction fuel generalizing a rest p with
  | zero => exact absurd enough (Nat.not_lt_zero _)
  | succ fuel ih =>
    cases names : words token rest with
    | nil =>
      rw [names] at many
      exact absurd many (Nat.not_lt_of_le before)
    | cons word more =>
      obtain ⟨p', a', a'', later, run, argv, stores, text, string', -, le, string'', names', shorter⟩ :=
        parseArgs_word string names
      rw [names, List.length_cons] at many
      rw [run fuel, if_neg (Nat.not_lt_of_le before)]
      by_cases last : p.argc = maxArgNr
      · -- the round that stores `argv[16]` is followed by one more at most
        obtain ⟨fuel, rfl⟩ : ∃ n, fuel = n + 1 := ⟨fuel - 1, by omega⟩
        have stored : maxArgNr ∈ p'.stores := by rw [stores, last]; exact List.mem_cons_self
        cases over_ : words token later with
        | nil => exact ⟨_, _, parseArgs_none over_, .inr (by dsimp only; rw [last]; rfl), stored⟩
        | cons word' more' =>
          obtain ⟨q, _, _, _, run', -, stores', -⟩ :=
            @parseArgs_word token a'' later word' more' { p' with argc := p.argc + 1 } string'' over_
          refine ⟨-1, q, ?_, .inl rfl, by rw [stores']; exact List.mem_cons_of_mem _ stored⟩
          rw [run' fuel, if_pos (by dsimp only; omega)]
      · exact @ih a'' later { p' with argc := p.argc + 1 } string'' (by omega) (by dsimp only; omega)
          (by rw [names']; dsimp only; omega)

/-- `cmd_parse` does what it is for: it stores only in `argv`, and reports the words or that they are too many. -/
def Splits (token : Byte) (text : Memory) (old : Nat → Option Nat) (cmd : List Byte) : Prop :=
  ∃ argc q, cmdParse token text old cmd = some (argc, q) ∧ (∀ k ∈ q.stores, k < maxArgNr) ∧
    if (words token cmd).length ≤ maxArgNr then argc = (words token cmd).length ∧
      (∀ k word, (words token cmd)[k]? = some word → ∃ a, q.argv k = some a ∧ StringAt q.text a word) ∧
      ∀ k, (words token cmd).length ≤ k → k < maxArgNr → q.argv k = none
    else argc = -1

theorem cmdParse_few {text : Memory} {cmd : List Byte} (string : StringAt text 0 cmd) (old : Nat → Option Nat)
    (few : (words token cmd).length ≤ maxArgNr) :
    ∃ q, cmdParse token text old cmd = some (((words token cmd).length : Int), q) ∧ (∀ k ∈ q.stores, k < maxArgNr) ∧
      (∀ k word, (words token cmd)[k]? = some word → ∃ a, q.argv k = some a ∧ StringAt q.text a word) ∧
      ∀ k, (words token cmd).length ≤ k → k < maxArgNr → q.argv k = none := by
  obtain ⟨q, run, -, stores, argv, found⟩ := @parseArgs_few token (cmd.length + 1) 0 cmd
    ⟨text, fun k => if k < maxArgNr then none else old k, (List.range maxArgNr).reverse, 0⟩ string
      (Nat.lt_succ_self _) (by dsimp only; omega)
  dsimp only at run argv found
  rw [Nat.zero_add] at run argv
  refine ⟨q, run, fun k member => ?_, fun k word here => ?_, fun k above below => ?_⟩
  · rcases stores k member with here | low
    · simpa using here
    · exact low
  · have there := found k word here
    rwa [Nat.zero_add] at there
  · rw [argv k (.inr above), if_pos below]

theorem cmdParse_many {text : Memory} {cmd : List Byte} (string : StringAt text 0 cmd) (old : Nat → Option Nat)
    (many : maxArgNr < (words token cmd).length) :
    ∃ argc q, cmdParse token text old cmd = some (argc, q) ∧ (argc = -1 ∨ argc = 17) ∧ maxArgNr ∈ q.stores :=
  parseArgs_many string (Nat.lt_succ_self _) (Nat.zero_le _) (by dsimp only; omega)

/-- `cmd_parse` is right exactly for commands of at most 16 words. -/
theorem cmdParse_splits_iff {token : Byte} {text : Memory} {cmd : List Byte} (string : StringAt text 0 cmd)
    (old : Nat → Option Nat) :
    Splits token text old cmd ↔ (words token cmd).length ≤ maxArgNr := by
  constructor
  · rintro ⟨argc, q, run, inside, -⟩
    by_contra many
    obtain ⟨_, _, run', -, far⟩ := @cmdParse_many token _ _ string old (Nat.lt_of_not_le many)
    cases run.symm.trans run'
    exact Nat.lt_irrefl _ (inside _ far)
  · intro few
    obtain ⟨q, run, inside, found, free⟩ := cmdParse_few string old few
    refine ⟨_, q, run, inside, ?_⟩
    rw [if_pos few]
    exact ⟨rfl, found, free⟩

def memoryOf (cmd : List Byte) : Memory := fun i => cmd.getD i 0

theorem stringAt_memoryOf (cmd : List Byte) : StringAt (memoryOf cmd) 0 cmd :=
  ⟨fun i _ => by rw [Nat.zero_add]; rfl, by simp [memoryOf]⟩

theorem cmdParse_splits_ls : Splits 0x20 (memoryOf [0x20, 0x6c, 0x73, 0x20, 0x20, 0x61, 0x20]) (fun _ => none)
    [0x20, 0x6c, 0x73, 0x20, 0x20, 0x61, 0x20] :=
  (cmdParse_splits_iff (stringAt_memoryOf _) _).mpr (by decide)

def seventeen : List Byte := (List.replicate 17 [0x61, 0x20]).flatten

/-- They are counted, and the last one is stored behind `argv`. -/
theorem cmdParse_overruns :
    (∃ q, cmdParse 0x20 (memoryOf seventeen) (fun _ => none) seventeen = some (17, q) ∧ 16 ∈ q.stores) ∧
    ¬ Splits 0x20 (memoryOf seventeen) (fun _ => none) seventeen := by
  have many : maxArgNr < (words 0x20 seventeen).length := by decide
  obtain ⟨argc, q, run, -, far⟩ := cmdParse_many (stringAt_memoryOf seventeen) (fun _ => none) many
  have count : (cmdParse 0x20 (memoryOf seventeen) (fun _ => none) seventeen).map Prod.fst = some 17 := by
    decide +kernel
  rw [run] at count
  cases count
  refine ⟨⟨q, run, far⟩, ?_⟩
  rintro ⟨_, _, run', inside, -⟩
  cases run.symm.trans run'
  exact Nat.lt_irrefl _ (inside _ far)

def space : Byte := 0x20
def pipeSymbol : Byte := 0x7c

/-- A `cmd_execute` of `my_shell`: the string it comes from, and `argc` and `argv` as `cmd_parse` has left them. -/
structure CmdCall where
  command : List Byte
  result : Option (Int × CmdParse)

def cmdCall (old : Nat → Option Nat) (command : List Byte) : CmdCall :=
  ⟨command, cmdParse space (memoryOf command) old command⟩

def eachCmd : Nat → List Byte → List (List Byte)
  | 0, _ => []
  | fuel + 1, cmd => match cmd.dropWhile (· ≠ pipeSymbol) with
    | [] => [cmd]
    | _ :: rest => cmd.takeWhile (· ≠ pipeSymbol) :: eachCmd fuel rest

/-- The calls that `my_shell` makes for a line: in a pipeline the result of `cmd_parse` is not looked at. -/
def shellCalls (old : Nat → Option Nat) (line : List Byte) : List CmdCall :=
  if line = [] then []
  else if line.contains pipeSymbol then (eachCmd (line.length + 1) line).map (cmdCall old)
  else if (cmdCall old line).result.map Prod.fst = some (-1) then [] else [cmdCall old line]

def CmdCall.Good (call : CmdCall) : Prop :=
  ∃ argc q a word, call.result = some (argc, q) ∧ 1 ≤ argc ∧ argc ≤ maxArgNr ∧ q.argv 0 = some a ∧ word ≠ [] ∧
    StringAt q.text a word

theorem eachCmd_eq {line : List Byte} (enough : line.length < fuel) : eachCmd fuel line = line.splitOn pipeSymbol := by
  induction fuel generalizing line with
  | zero => exact absurd enough (Nat.not_lt_zero _)
  | succ fuel ih =>
    have whole := List.takeWhile_append_dropWhile (p := fun c => decide (c ≠ pipeSymbol)) (l := line)
    have plain : pipeSymbol ∉ line.takeWhile (· ≠ pipeSymbol) := by grind [List.all_takeWhile]
    rw [eachCmd]
    cases rest : line.dropWhile (· ≠ pipeSymbol) with
    | nil =>
      rw [rest, List.append_nil] at whole
      rw [whole] at plain
      rw [splitOn_of_notMem plain]
    | cons c later =>
      have stop := List.head?_dropWhile_not (fun c => decide (c ≠ pipeSymbol)) line
      rw [rest] at whole stop
      obtain rfl : c = pipeSymbol := by simpa using stop
      have length := congrArg List.length whole
      rw [List.length_append, List.length_cons] at length
      conv => rhs; rw [← whole, splitOn_append_sep, splitOn_of_notMem plain]
      dsimp only
      rw [ih (by omega)]
      rfl

theorem cmdCall_good_iff (old : Nat → Option Nat) (cmd : List Byte) : (cmdCall old cmd).Good ↔
    1 ≤ (words space cmd).length ∧ (words space cmd).length ≤ maxArgNr := by
  constructor
  · rintro ⟨argc, q, a, word, run, low, high, -⟩
    by_cases few : (words space cmd).length ≤ maxArgNr
    · obtain ⟨_, run', -⟩ := cmdParse_few (stringAt_memoryOf cmd) old few
      cases run.symm.trans run'
      exact ⟨by omega, few⟩
    · obtain ⟨_, _, run', result, -⟩ := cmdParse_many (stringAt_memoryOf cmd) old (Nat.lt_of_not_le few)
      cases run.symm.trans run'
      have : (maxArgNr : Int) = 16 := rfl
      omega
  · rintro ⟨some, few⟩
    obtain ⟨q, run, -, found, -⟩ := cmdParse_few (stringAt_memoryOf cmd) old few
    cases names : words space cmd with
    | nil =>
      rw [names] at some
      cases some
    | cons word more =>
      obtain ⟨a, here, string⟩ := found 0 word (by rw [names]; rfl)
      have member : word ∈ words space cmd := by rw [names]; exact List.mem_cons_self
      exact ⟨_, q, a, word, run, by omega, by omega, here, (mem_words member).1, string⟩

/-- The calls of `my_shell` are good and are those for the segments with a word, exactly when every
segment has from 1 to 16 words. -/
theorem shellCalls_good_iff (old : Nat → Option Nat) (line : List Byte) :
    ((∀ call ∈ shellCalls old line, call.Good) ∧
    (shellCalls old line).map CmdCall.command = (line.splitOn pipeSymbol).filter (words space · ≠ [])) ↔
      line = [] ∨ ∀ segment ∈ line.splitOn pipeSymbol, 1 ≤ (words space segment).length ∧
        (words space segment).length ≤ maxArgNr := by
  by_cases none : line = []
  · subst none
    exact iff_of_true ⟨by simp [shellCalls], rfl⟩ (.inl rfl)
  rw [or_iff_right none, shellCalls, if_neg none]
  have filled {segments : List (List Byte)} (each : ∀ segment ∈ segments, 1 ≤ (words space segment).length ∧
      (words space segment).length ≤ maxArgNr) :
      segments = segments.filter (words space · ≠ []) :=
    (List.filter_eq_self.mpr fun segment member => decide_eq_true (List.length_pos_iff.mp (each segment member).1)).symm
  by_cases piped : pipeSymbol ∈ line
  · rw [if_pos (List.contains_iff_mem.mpr piped), eachCmd_eq (Nat.lt_succ_self _), List.forall_mem_map]
    simp only [cmdCall_good_iff]
    refine and_iff_left_of_imp fun each => ?_
    rw [List.map_map, ← filled each]
    exact List.map_id _
  · rw [if_neg (mt List.contains_iff_mem.mp piped), splitOn_of_notMem piped, List.forall_mem_singleton]
    split
    · next refused =>
      have many : ¬ (words space line).length ≤ maxArgNr := by
        intro few
        obtain ⟨_, run, -⟩ := cmdParse_few (stringAt_memoryOf line) old few
        rw [cmdCall, run] at refused
        have := Option.some.inj refused
        omega
      refine iff_of_false (fun both => ?_) fun each => many each.2
      have some : words space line ≠ [] := fun none => many (by rw [none]; exact Nat.zero_le _)
      have member : line ∈ [line].filter (words space · ≠ []) :=
        List.mem_filter.mpr ⟨List.mem_singleton_self line, decide_eq_true some⟩
      rw [← both.2] at member
      cases member
    · rw [List.forall_mem_singleton, cmdCall_good_iff]
      refine and_iff_left_of_imp fun each => ?_
      rw [← filled (List.forall_mem_singleton.mpr each)]
      rfl

/-- A blank line is executed, with `argc` 0. -/
theorem shellCalls_blank : ∃ call ∈ shellCalls (fun _ => none) [0x20], call.result.map Prod.fst = some 0 ∧
    ¬ call.Good := by
  refine ⟨cmdCall (fun _ => none) [0x20], ?_, by decide, fun good => ?_⟩
  · rw [shellCalls, if_neg (by decide), if_neg (by decide), if_neg (by decide)]
    exact List.mem_singleton_self _
  · exact absurd ((cmdCall_good_iff _ _).mp good).1 (by decide)

end LaiMiniOs
