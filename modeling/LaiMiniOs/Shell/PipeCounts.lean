import LaiMiniOs.Fs.Slots
import LaiMiniOs.Userprog.Tasks

/-! The descriptors of a pipe are counted in `fd_pos`.

The page of a pipe goes back to the kernel pool with the last descriptor that was counted. Which
descriptors these are is a matter of the tasks; here they are any holders.
-/

set_option autoImplicit false

namespace LaiMiniOs
open Foundation Prog Function

variable {g page : Nat} {s t : Fs}

variable {H : Type} [DecidableEq H]

/-- The slots in use are the pipes, one slot for each page that was made and not freed; `fd_pos` is
the number of holders of the page. -/
structure Pipes (table : Nat → File) (freed : List Nat) (brk : Nat) (holders : H → Option Nat) (made : List Nat) :
    Prop where
  flag : ∀ g page, (table g).fdInode = some page → (table g).fdFlag = pipeFlag
  refs : ∀ g page, (table g).fdInode = some page → Refs holders page (table g).fdPos.toNat
  counted : ∀ g page, (table g).fdInode = some page → (table g).fdPos ≠ 0
  apart : ∀ g g' page, (table g).fdInode = some page → (table g').fdInode = some page → g = g'
  held : ∀ h page, holders h = some page → ∃ g, (table g).fdInode = some page
  inUse : ∀ g page, (table g).fdInode = some page → page ∈ made ∧ page ∉ freed
  returned : ∀ page ∈ made, (∀ g, (table g).fdInode ≠ some page) → freed.count page = 1
  fresh : ∀ page, page ∈ made ∨ page ∈ freed → page < brk
  std : ∀ g, g < 3 → (table g).fdInode = none ∧ (table g).fdFlag ≠ pipeFlag

namespace Pipes

variable {table : Nat → File} {freed : List Nat} {brk : Nat} {holders : H → Option Nat} {made : List Nat}
  (pipes : Pipes table freed brk holders made)
include pipes

section
variable (here : (table g).fdInode = some page)
include here

omit [DecidableEq H] in
theorem exists_holder : ∃ h, holders h = some page := by
  by_contra none
  have zero := (pipes.refs g page here).unique (Refs.zero_iff.mpr fun h this => none ⟨h, this⟩)
  exact pipes.counted g page here (BitVec.eq_of_toNat_eq zero)

omit [DecidableEq H] in
theorem slot_ge : 3 ≤ g := by
  by_contra low
  rw [(pipes.std g (by omega)).1] at here
  cases here

theorem recount {h : H} {x : Option Nat} {pos : Word} (some_ : pos ≠ 0)
    (only : ∀ other, other ≠ page → (holders h ≠ some other ∧ x ≠ some other))
    (refs : Refs (update holders h x) page pos.toNat) :
    Pipes (update table g { table g with fdPos := pos }) freed brk (update holders h x) made := by
  have slot (g' : Nat) : (update table g { table g with fdPos := pos } g').fdInode = (table g').fdInode := by grind
  have flag (g' : Nat) : (update table g { table g with fdPos := pos } g').fdFlag = (table g').fdFlag := by grind
  refine ⟨fun g' page' => ?_, fun g' page' here' => ?_, fun g' page' here' => ?_, fun g' g'' page' =>
    ?_, fun h' page' => ?_, fun g' page' => ?_,
    fun page' member => ?_, pipes.fresh, fun g' => ?_⟩
  · rw [slot, flag]
    exact pipes.flag g' page'
  · rw [slot] at here'
    by_cases same : g' = g
    · subst same
      rw [here] at here'
      cases here'
      rw [update_self]
      exact refs
    · rw [update_of_ne same]
      have other : page' ≠ page := by
        rintro rfl
        exact same (pipes.apart g' g page' here' here)
      exact (pipes.refs g' page' here').other (only page' other).1 (only page' other).2
  · grind [pipes.counted]
  · rw [slot, slot]
    exact pipes.apart g' g'' page'
  · grind [pipes.held]
  · rw [slot]
    exact pipes.inUse g' page'
  · intro none
    exact pipes.returned page' member fun g' here' => none g' (by rw [slot, here'])
  · rw [slot, flag]
    exact pipes.std g'

theorem add {h : H} (free : holders h = none) (room : (table g).fdPos.toNat + 1 < 2 ^ 32) :
    Pipes (update table g { table g with fdPos := (table g).fdPos + 1 }) freed brk
      (update holders h (some page)) made := by
  have more : ((table g).fdPos + 1).toNat = (table g).fdPos.toNat + 1 := by bv_omega
  refine pipes.recount here (fun zero => ?_) (fun other apart => ?_) ?_
  · rw [zero] at more
    exact absurd more (by simp)
  · rw [free]
    exact ⟨(nomatch ·), fun same => apart (Option.some.inj same).symm⟩
  · rw [more]
    exact (pipes.refs g page here).add (by rw [free]; exact (nomatch ·))

theorem drop {h : H} (mine : holders h = some page) (more : (table g).fdPos - 1 ≠ 0) :
    Pipes (update table g { table g with fdPos := (table g).fdPos - 1 }) freed brk (update holders h none) made := by
  have some_ := pipes.counted g page here
  have less : ((table g).fdPos - 1).toNat = (table g).fdPos.toNat - 1 := by bv_omega
  refine pipes.recount here more (fun other apart => ?_) ?_
  · rw [mine]
    exact ⟨fun same => apart (Option.some.inj same).symm, (nomatch ·)⟩
  · rw [less]
    exact (pipes.refs g page here).drop mine (nomatch ·)

theorem last {h : H} (mine : holders h = some page) (one : (table g).fdPos - 1 = 0) :
    Pipes (update table g { table g with fdPos := 0, fdInode := none }) (page :: freed) brk
      (update holders h none) made := by
  have some_ := pipes.counted g page here
  have count : (table g).fdPos.toNat = 1 := by bv_omega
  have gone : ∀ h', update holders h none h' ≠ some page := by
    have refs := (pipes.refs g page here).drop mine (x := none) (nomatch ·)
    rw [count] at refs
    exact Refs.zero_iff.mp refs
  have self : (update table g { table g with fdPos := 0, fdInode := none } g).fdInode = none := by rw [update_self]
  have slot {g' : Nat} (other : g' ≠ g) : update table g { table g with fdPos := 0, fdInode := none } g' = table g' :=
    update_of_ne other _ _
  -- What is left in the slots is another page in another slot.
  have old {g' page' : Nat} (here' : (update table g { table g with fdPos := 0, fdInode := none } g').fdInode =
      some page') :
      g' ≠ g ∧ (table g').fdInode = some page' ∧ page' ≠ page := by grind [pipes.apart]
  refine ⟨fun g' page' here' => ?_, fun g' page' here' => ?_, fun g' page' here' =>
    ?_, fun g' g'' page' here' here'' => ?_, fun h' page' held => ?_,
    fun g' page' here' => ?_, fun page' member none => ?_, fun page' which => ?_, fun g' low => ?_⟩
  · obtain ⟨other, inside, -⟩ := old here'
    rw [slot other]
    exact pipes.flag g' page' inside
  · obtain ⟨other, inside, apart⟩ := old here'
    rw [slot other]
    exact (pipes.refs g' page' inside).other (fun same => apart (Option.some.inj (same.symm.trans mine))) (nomatch ·)
  · grind [pipes.counted]
  · exact pipes.apart g' g'' page' (old here').2.1 (old here'').2.1
  · grind [pipes.held]
  · grind [pipes.inUse]
  · grind [pipes.inUse, pipes.returned]
  · rcases which with member | member
    · exact pipes.fresh page' (.inl member)
    · rcases List.mem_cons.mp member with rfl | member
      · exact pipes.fresh page' (.inl (pipes.inUse g page' here).1)
      · exact pipes.fresh page' (.inr member)
  · rw [slot (by have := pipes.slot_ge here; omega)]
    exact pipes.std g' low

end

theorem make (high : 3 ≤ g) (empty : (table g).fdInode = none) {h₀ h₁ : H} (two : h₁ ≠ h₀) (free₀ : holders h₀ = none)
    (free₁ : holders h₁ = none) :
    Pipes (update table g ⟨2, pipeFlag, some brk⟩) freed (brk + 1)
      (update (update holders h₀ (some brk)) h₁ (some brk)) (brk :: made) := by
  have notMade : brk ∉ made := fun member => absurd (pipes.fresh brk (.inl member)) (Nat.lt_irrefl _)
  have notFreed : brk ∉ freed := fun member => absurd (pipes.fresh brk (.inr member)) (Nat.lt_irrefl _)
  have unheld : ∀ h, holders h ≠ some brk := by grind [pipes.held, pipes.inUse]
  have self : update table g ⟨2, pipeFlag, some brk⟩ g = ⟨2, pipeFlag, some brk⟩ := update_self _ _ _
  have slot {g' : Nat} (other : g' ≠ g) : update table g ⟨2, pipeFlag, some brk⟩ g' = table g' := update_of_ne other _ _
  -- The slot is the new one, or one of an older page.
  have cases_ {g' page : Nat} (here : (update table g ⟨2, pipeFlag, some brk⟩ g').fdInode = some page) :
      (g' = g ∧ page = brk) ∨ (g' ≠ g ∧ (table g').fdInode = some page ∧ page ≠ brk) := by grind [pipes.inUse]
  have update {h : H} {page : Nat} (other : page ≠ brk)
      (held : update (update holders h₀ (some brk)) h₁ (some brk) h = some page) :
      holders h = some page := by grind
  refine ⟨fun g' page here => ?_, fun g' page here => ?_, fun g' page here => ?_, fun g' g'' page here here' =>
    ?_, fun h page held => ?_,
    fun g' page here => ?_, fun page member none => ?_, fun page which => ?_, fun g' low => ?_⟩
  · grind [pipes.flag]
  · rcases cases_ here with ⟨rfl, rfl⟩ | ⟨other, inside, apart⟩
    · rw [self]
      refine ((Refs.zero_iff.mpr unheld).add (unheld h₀)).add ?_
      rw [update_of_ne two]
      exact unheld h₁
    · rw [slot other]
      have notNew : (some brk : Option Nat) ≠ some page := fun same => apart (Option.some.inj same).symm
      refine ((pipes.refs g' page inside).other ?_ notNew).other ?_ notNew
      · rw [free₀]
        exact (nomatch ·)
      · rw [update_of_ne two, free₁]
        exact (nomatch ·)
  · grind [pipes.counted]
  · grind [pipes.apart]
  · grind [pipes.held]
  · grind [pipes.inUse]
  · grind [pipes.returned]
  · rcases which with member | member
    · rcases List.mem_cons.mp member with rfl | member
      · exact Nat.lt_succ_self _
      · exact Nat.lt_succ_of_lt (pipes.fresh page (.inl member))
    · exact Nat.lt_succ_of_lt (pipes.fresh page (.inr member))
  · rw [slot (by omega)]
    exact pipes.std g' low

end Pipes

/-- There is room for two more descriptors. -/
def TwoFree (fdTable : Nat → Option Nat) : Prop :=
  ∃ d d', 3 ≤ d ∧ d < d' ∧ d' < maxFilesOpenPerProc ∧ fdTable d = none ∧ fdTable d' = none

theorem sysPipe_eq_ok {r fd₀ fd₁ : Int} (run : sysPipe s = .ok ((r, fd₀, fd₁), t)) (room : TwoFree s.fdTable) :
    ∃ g d₀ d₁ : Nat, fd₀ = d₀ ∧ fd₁ = d₁ ∧ d₁ ≠ d₀ ∧ (3 ≤ d₀ ∧ d₀ < maxFilesOpenPerProc) ∧
      (3 ≤ d₁ ∧ d₁ < maxFilesOpenPerProc) ∧ s.fdTable d₀ = none ∧ s.fdTable d₁ = none ∧
      t.fdTable = update (update s.fdTable d₀ (some g)) d₁ (some g) ∧ 3 ≤ g ∧
      (s.fileTable g).fdInode = none ∧ t.fileTable = update s.fileTable g ⟨2, pipeFlag, some s.brk⟩ ∧
      t.brk = s.brk + 1 ∧
      t.freedPages = s.freedPages := by
  have install {g : Nat} {u u' : Fs} {fd : Int} (run : pcbFdInstall g u = .ok (fd, u'))
      (room : ∃ d, 3 ≤ d ∧ d < maxFilesOpenPerProc ∧ u.fdTable d = none) :
      ∃ d : Nat, fd = d ∧ u.toKernel.freeFd = some d ∧ u' = u.setFd d (some g) := by
    obtain ⟨d, high, low, free⟩ := room
    obtain ⟨d', first⟩ := exists_freeFd (k := u.toKernel) high low free
    rw [pcbFdInstall_some first] at run
    cases run
    exact ⟨d', rfl, first, rfl⟩
  obtain ⟨d, d', high, less, low, free, free'⟩ := room
  unfold sysPipe at run
  rw [bind_of_ok (getFreeSlotInGlobal_eq s)] at run
  cases slot : s.toKernel.freeSlot with
  | none =>
    rw [slot] at run
    cases run
  | some g =>
    rw [slot] at run
    dsimp only at run
    rw [modify_bind] at run
    obtain ⟨fd, u, first, run⟩ := bind_eq_ok.mp run
    obtain ⟨fd', u', second, run⟩ := bind_eq_ok.mp run
    cases run
    obtain ⟨d₀, rfl, free₀, rfl⟩ := install first ⟨d, high, by omega, free⟩
    -- Of the two free places one is still there.
    have left : ∃ e, 3 ≤ e ∧ e < maxFilesOpenPerProc ∧ update s.fdTable d₀ (some g) e = none := by
      by_cases same : d = d₀
      · exact ⟨d', by omega, low, by rw [update_of_ne (by omega)]; exact free'⟩
      · exact ⟨d, high, by omega, by rw [update_of_ne same]; exact free⟩
    obtain ⟨d₁, rfl, free₁, rfl⟩ := install second left
    obtain ⟨high₀, low₀, unused₀⟩ := freeFd_some free₀
    obtain ⟨high₁, low₁, unused₁⟩ := freeFd_some free₁
    obtain ⟨high, -, empty⟩ := freeSlot_some slot
    have unused₁ : update s.fdTable d₀ (some g) d₁ = none := unused₁
    have two : d₁ ≠ d₀ := by
      rintro rfl
      rw [update_self] at unused₁
      cases unused₁
    rw [update_of_ne two] at unused₁
    exact ⟨g, d₀, d₁, rfl, rfl, two, ⟨high₀, low₀⟩, ⟨high₁, low₁⟩, unused₀, unused₁, rfl, high, empty, rfl, rfl, rfl⟩

theorem sysFdRedirect_eq_ok {oldFd newFd : Nat} (run : sysFdRedirect oldFd newFd s = .ok ((), t)) :
    oldFd < maxFilesOpenPerProc ∧ newFd < maxFilesOpenPerProc ∧
      t = s.setFd oldFd (if newFd < 3 then some newFd else s.fdTable newFd) := by
  obtain ⟨⟨low, low'⟩, run⟩ := require_bind_eq_ok.mp run
  cases run
  exact ⟨low, low', rfl⟩

/-- A seek to this place leads out of the file. -/
def Fs.SeeksOutside (s : Fs) (g p : Nat) (offset : Word) (whence : Whence) : Prop :=
  let newPos := match whence with
    | .seekSet => offset
    | .seekCur => (s.fileTable g).fdPos + offset
    | .seekEnd => (s.heap p).iSize + offset
  newPos.toInt < 0 ∨ ((s.heap p).iSize - 1).toInt < newPos.toInt

theorem sysLseek_refused {fd r : Int} {offset : Word} {whence : Whence} (run : sysLseek fd offset whence s = .ok (r, t))
    (outside : fd < 0 ∨ ∀ g p, s.fdTable fd.toNat = some g → (s.fileTable g).fdInode = some p →
      s.SeeksOutside g p offset whence) : s = t := by
  unfold sysLseek at run
  split at run
  · cases run
    rfl
  · next named =>
    obtain ⟨g, s', find, run⟩ := bind_eq_ok.mp run
    obtain ⟨-, table, -, rfl⟩ := fdLocal2Global_eq_ok.mp find
    rw [get_bind] at run
    dsimp only at run
    cases node : (s.fileTable g).fdInode with
    | none =>
      rw [node] at run
      cases run
    | some p =>
      rw [node] at run
      have leaves := outside.resolve_left named g p table node
      unfold Fs.SeeksOutside at leaves
      cases whence
      all_goals
        dsimp only at run leaves
        rw [if_pos leaves] at run
        cases run
        rfl

abbrev Fs.Pipes (s : Fs) (holders : H → Option Nat) (made : List Nat) : Prop :=
  LaiMiniOs.Pipes s.fileTable s.freedPages s.brk holders made

section
variable {s t : Fs} {holders : H → Option Nat} {made : List Nat} (pipes : s.Pipes holders made)
include pipes

structure Fs.SamePipes (s t : Fs) : Prop where
  fdTable : t.fdTable = s.fdTable
  older : ∀ g page, t.toKernel.inSlot g = some page → s.toKernel.inSlot g = some page

omit pipes in
theorem Fs.SamePipes.trans {u : Fs} (first : s.SamePipes t) (second : t.SamePipes u) : s.SamePipes u :=
  ⟨second.fdTable.trans first.fdTable, fun g page here => first.older g page (second.older g page here)⟩

theorem pipeClose_pipes (here : s.toKernel.inSlot g = some page) {h : H} (mine : holders h = some page)
    (run : pipeClose g s = .ok ((), t)) : t.Pipes (update holders h none) made ∧ s.SamePipes t := by
  unfold pipeClose at run
  rw [get_bind] at run
  have here' : (s.fileTable g).fdInode = some page := here
  dsimp only at run
  split at run
  · next one =>
    rw [here'] at run
    cases run
    refine ⟨pipes.last here mine one, rfl, fun g' page' inside => ?_⟩
    grind [Kernel.inSlot, fileTable_setFile_self, fileTable_setFile_of_ne]
  · next more =>
    cases run
    refine ⟨pipes.drop here mine more, rfl, fun g' page' inside => ?_⟩
    grind [Kernel.inSlot, fileTable_setFile_self, fileTable_setFile_of_ne]

omit [DecidableEq H] in
theorem isPipe_of_named {fd : Nat} (named : s.fdTable fd = some g) (here : s.toKernel.inSlot g = some page)
    {pipe : Bool}
    (run : isPipe fd s = .ok (pipe, t)) : pipe = true ∧ s = t := by
  obtain ⟨rfl, -, g', named', -, rfl⟩ := isPipe_eq_ok run
  rw [named] at named'
  cases named'
  exact ⟨beq_iff_eq.mpr (pipes.flag g page here), rfl⟩

/-- One round of `update_inode_open_cnts`. A descriptor that is not on a pipe must be free. -/
theorem countFd_pipes (fd : Nat) {h : H} (named : Option Nat) (free : holders h = none)
    (known : ∀ page, named = some page → ∃ g, s.fdTable fd = some g ∧ s.toKernel.inSlot g = some page)
    (other : named = none → ∀ g, s.fdTable fd = some g → g < 3) (room : ∀ g, (s.fileTable g).fdPos.toNat + 1 < 2 ^ 32)
    (run : countFd fd s = .ok ((), t)) :
    t.Pipes (update holders h named) made ∧ s.SamePipes t ∧ (∀ g, t.toKernel.inSlot g = s.toKernel.inSlot g) ∧
      ∀ g, (t.fileTable g).fdPos.toNat ≤ (s.fileTable g).fdPos.toNat + 1 := by
  unfold countFd at run
  rw [get_bind] at run
  cases here : s.fdTable fd with
  | none =>
    rw [here] at run
    cases run
    have nothing : named = none := by
      cases named with
      | none => rfl
      | some page =>
        obtain ⟨g, named, -⟩ := known page rfl
        rw [here] at named
        cases named
    rw [nothing, ← free, update_eq_self]
    exact ⟨pipes, ⟨rfl, fun _ _ inside => inside⟩, fun _ => rfl, fun _ => Nat.le_succ _⟩
  | some g =>
    rw [here] at run
    obtain ⟨-, run⟩ := require_bind_eq_ok.mp run
    obtain ⟨pipe, u, check, run⟩ := bind_eq_ok.mp run
    cases named with
    | none =>
      -- A standard slot is no pipe and has no inode, so that the kernel would follow a null pointer.
      obtain ⟨rfl, -, g', named', -, rfl⟩ := isPipe_eq_ok check
      rw [here] at named'
      cases named'
      obtain ⟨empty, plain⟩ := pipes.std g (other rfl g here)
      rw [if_neg fun same => plain (eq_of_beq same), get_bind, empty] at run
      cases run
    | some page =>
      obtain ⟨g', named', inside⟩ := known page rfl
      rw [here] at named'
      cases named'
      obtain ⟨rfl, rfl⟩ := isPipe_of_named pipes here inside check
      rw [if_pos rfl] at run
      cases run
      have slot (g' : Nat) : (s.setFile g { s.fileTable g with fdPos := (s.fileTable g).fdPos + 1 }).toKernel.inSlot
          g' = s.toKernel.inSlot g' := by grind [Kernel.inSlot, fileTable_setFile_self, fileTable_setFile_of_ne]
      refine ⟨pipes.add inside free (room g), ⟨rfl, fun g' page' inside' => (slot g').symm.trans inside'⟩, slot,
        fun g' => ?_⟩
      grind [fileTable_setFile_self, fileTable_setFile_of_ne]

theorem sysClose_pipes {fd : Int} (high : 2 < fd) {h : H}
    (known : ∀ page, holders h = some page → ∃ g, s.fdTable fd.toNat = some g ∧ s.toKernel.inSlot g = some page)
    (other : fd.toNat < maxFilesOpenPerProc → holders h = none → ∀ g, s.fdTable fd.toNat = some g → g < 3) {r : Int}
    (run : sysClose fd s = .ok (r, t)) :
    holders h ≠ none ∧ ∃ u : Fs, u.Pipes (update holders h none) made ∧ s.SamePipes u ∧ t = u.setFd fd.toNat none := by
  unfold sysClose at run
  rw [if_neg (by omega)] at run
  obtain ⟨g, s', find, run⟩ := bind_eq_ok.mp run
  obtain ⟨low, here, -, rfl⟩ := fdLocal2Global_eq_ok.mp find
  obtain ⟨ret, u, close, run⟩ := bind_eq_ok.mp run
  rw [modify_bind] at run
  cases run
  obtain ⟨pipe, u', check, close⟩ := bind_eq_ok.mp close
  cases mine : holders h with
  | none =>
    -- A standard slot has no inode that could be closed.
    obtain ⟨rfl, -, g', named', -, rfl⟩ := isPipe_eq_ok check
    rw [here] at named'
    cases named'
    obtain ⟨empty, plain⟩ := pipes.std g (other low mine g here)
    rw [if_neg fun same => plain (eq_of_beq same), fileClose, get_bind, empty] at close
    cases close
  | some page =>
    obtain ⟨g', named', inside⟩ := known page mine
    rw [here] at named'
    cases named'
    obtain ⟨rfl, rfl⟩ := isPipe_of_named pipes here inside check
    rw [if_pos rfl] at close
    obtain ⟨_, u', close, last⟩ := bind_eq_ok.mp close
    cases last
    obtain ⟨pipes', same⟩ := pipeClose_pipes pipes inside mine close
    exact ⟨Option.some_ne_none page, u, pipes', same, rfl⟩

theorem releaseFd_pipes {fd : Nat} (high : 2 < fd) {h : H} (known : ∀ page, holders h = some page →
    ∃ g, s.fdTable fd = some g ∧ s.toKernel.inSlot g = some page)
    (other : holders h = none → ∀ g, s.fdTable fd = some g → g < 3) (run : releaseFd fd s = .ok ((), t)) :
    t.Pipes (update holders h none) made ∧ s.SamePipes t := by
  unfold releaseFd at run
  rw [get_bind] at run
  cases here : s.fdTable fd with
  | none =>
    rw [here] at run
    cases run
    have free : holders h = none := by
      cases mine : holders h with
      | none => rfl
      | some page =>
        obtain ⟨g, named, -⟩ := known page mine
        rw [here] at named
        cases named
    rw [← free, update_eq_self]
    exact ⟨pipes, rfl, fun _ _ inside => inside⟩
  | some g =>
    rw [here] at run
    dsimp only at run
    obtain ⟨pipe, u, check, run⟩ := bind_eq_ok.mp run
    cases mine : holders h with
    | none =>
      obtain ⟨rfl, -, g', named', -, rfl⟩ := isPipe_eq_ok check
      rw [here] at named'
      cases named'
      obtain ⟨empty, plain⟩ := pipes.std g (other mine g here)
      rw [if_neg fun same => plain (eq_of_beq same)] at run
      obtain ⟨_, u, close, -⟩ := bind_eq_ok.mp run
      exact absurd mine (sysClose_pipes pipes (show 2 < (fd : Int) by omega) known (fun _ => other) close).1
    | some page =>
      obtain ⟨g', named', inside⟩ := known page mine
      rw [here] at named'
      cases named'
      obtain ⟨rfl, rfl⟩ := isPipe_of_named pipes here inside check
      rw [if_pos rfl] at run
      obtain ⟨g', u, find, close⟩ := bind_eq_ok.mp run
      grind [fdLocal2Global_eq_ok, pipeClose_pipes]

end

end LaiMiniOs
