import LaiMiniOs.Foundation.References
import LaiMiniOs.Fs.OpenUsers

/-! The slots of `file_table`.

Every slot with an inode in it has a handle of its own on that inode. So the inode of a slot is
in the cache, whatever else is opened and closed.
-/

set_option autoImplicit false

namespace LaiMiniOs
open Foundation Prog Function

variable {s t : Fs} {g p : Nat} {held : List Nat} {fd : Int} {stack : Stack} {path : List Byte} {flags : Word}

section
variable {R : Fs → Fs → Prop}
  (move : ∀ (s : Fs) (g : Nat) (pos : Word), R s (s.setFile g { s.fileTable g with fdPos := pos }))
include move

theorem readLoop_keeps (g : Nat) (blocks : Nat → Word) (size bytesRead : Nat) :
    Keeps R (readLoop g blocks size bytesRead) := by
  induction left : size - bytesRead using Nat.strong_induction_on generalizing bytesRead with
  | _ left ih =>
    rw [readLoop]
    split
    · refine Keeps.look.bind fun s => (Keeps.check _ _).bind fun _ => (ideRead_keeps _ _).bind fun _ =>
        Keeps.bind (.change fun t => move t g _) fun _ => ?_
      exact (ih _ (by omega) _ rfl).bind fun _ => .ret _
    · exact .ret _

theorem fileRead_keeps (g : Nat) (count : Word) : Keeps R (fileRead g count) := by
  have from_ (inode : Inode) (pos size : Word) : Keeps R (readFrom g inode pos size) := by
    refine (Keeps.check _ _).bind fun _ => Keeps.bind ?_ fun blocks =>
      (readLoop_keeps move _ _ _ _).bind fun _ => .ret _
    exact .ite (.ret _) ((Keeps.when (.check _ _)).bind fun _ => (ideRead_keeps _ _).bind fun _ => .ret _)
  refine Keeps.look.bind fun s => ?_
  split
  · exact .stop _
  · exact Keeps.look.bind fun _ => Keeps.look.bind fun _ => .ite (.ite (.ret _) (from_ _ _ _)) (from_ _ _ _)

omit move in
theorem fdLocal2Global_keeps (fd : Nat) : Keeps R (fdLocal2Global fd) := by
  refine (Keeps.check _ _).bind fun _ => Keeps.look.bind fun s => ?_
  split
  · exact .stop _
  · exact (Keeps.check _ _).bind fun _ => .ret _

omit move in
theorem isPipe_keeps (fd : Nat) : Keeps R (isPipe fd) :=
  (fdLocal2Global_keeps fd).bind fun _ => Keeps.look.bind fun _ => .ret _

theorem sysRead_keeps (fd : Int) (count : Word) : Keeps R (sysRead fd count) :=
  .ite (.ret _) ((isPipe_keeps _).bind fun _ => .ite (.stop _)
    ((fdLocal2Global_keeps _).bind fun _ => fileRead_keeps move _ _))

variable (tol : Fs.Tolerant R)
include tol

omit move in
theorem growBlocks_keeps (p : Nat) (blocks : Nat → Word) (k left : Nat) : Keeps R (growBlocks p blocks k left) := by
  induction left generalizing blocks k with
  | zero => exact .ret _
  | succ left ih =>
    refine (blockBitmapAlloc_keeps tol).bind fun lba => .ite (.ret _) (Keeps.bind ?_ fun _ => Keeps.look.bind fun _ =>
      (bitmapSync_keeps tol _ _).bind fun _ => ih _ _)
    exact .when (Keeps.look.bind fun _ => (Keeps.check _ _).bind fun _ => setSector_keeps tol _ _ _)

omit move in
theorem collectForWrite_keeps (p has will : Nat) : Keeps R (collectForWrite p has will) := by
  refine Keeps.look.bind fun s => .ite (.ite (.ret _) ?_) (.ite ?_ (.ite ?_ ?_))
  · exact (Keeps.check _ _).bind fun _ => (ideRead_keeps _ _).bind fun _ => .ret _
  · exact (Keeps.check _ _).bind fun _ => (Keeps.check _ _).bind fun _ => growBlocks_keeps tol _ _ _ _
  · refine (blockBitmapAlloc_keeps tol).bind fun lba =>
      .ite (.ret _) (Keeps.look.bind fun _ => (Keeps.check _ _).bind fun _ =>
      (setSector_keeps tol _ _ _).bind fun _ => (growBlocks_keeps tol _ _ _ _).bind fun found => ?_)
    cases found with
    | none => exact .ret _
    | some blocks => exact (ideWrite_keeps tol _ _ _).bind fun _ => .ret _
  · refine (Keeps.check _ _).bind fun _ => (ideRead_keeps _ _).bind fun _ =>
      (growBlocks_keeps tol _ _ _ _).bind fun found => ?_
    cases found with
    | none => exact .ret _
    | some blocks => exact (ideWrite_keeps tol _ _ _).bind fun _ => .ret _

theorem writeLoop_keeps (g p : Nat) (blocks : Nat → Word) (src : Memory) (count bytesWritten : Nat) (first : Bool) :
    Keeps R (writeLoop g p blocks src count bytesWritten first) := by
  induction left : count - bytesWritten using Nat.strong_induction_on generalizing bytesWritten first with
  | _ left ih =>
    rw [writeLoop]
    split
    · refine Keeps.look.bind fun s => (Keeps.check _ _).bind fun _ =>
        (Keeps.ite (ideRead_keeps _ _) (.ret _)).bind fun _ =>
        (ideWrite_keeps tol _ _ _).bind fun _ => Keeps.bind (.change fun t => tol.inode t p _ ⟨rfl, rfl, rfl⟩) fun _ =>
        Keeps.bind (.change fun t => move t g _) fun _ => ?_
      exact ih _ (by omega) _ _ rfl
    · exact .ret _

theorem fileWrite_keeps (g : Nat) (src : Memory) (count : Word) : Keeps R (fileWrite g src count) := by
  have first (p : Nat) : Keeps R (firstBlock p) := by
    refine Keeps.look.bind fun _ => .ite ((blockBitmapAlloc_keeps tol).bind fun _ => .ite (.ret _) ?_) (.ret _)
    exact (setSector_keeps tol _ _ _).bind fun _ => Keeps.look.bind fun _ => (Keeps.check _ _).bind fun _ =>
      (bitmapSync_keeps tol _ _).bind fun _ => .ret _
  refine Keeps.look.bind fun s => ?_
  split
  · exact .stop _
  · refine Keeps.look.bind fun _ =>
      .ite (.ret _) ((first _).bind fun _ => .ite (.ret _) ((Keeps.check _ _).bind fun _ =>
      (collectForWrite_keeps tol _ _ _).bind fun found => ?_))
    cases found with
    | none => exact .ret _
    | some blocks =>
      exact Keeps.bind (.change fun t => move t g _) fun _ => (writeLoop_keeps move tol _ _ _ _ _ _ _).bind fun _ =>
        Keeps.look.bind fun _ => (inodeSync_keeps tol _).bind fun _ => .ret _

theorem sysWrite_keeps (fd : Int) (buf : Memory) (count : Word) : Keeps R (sysWrite fd buf count) :=
  .ite (.ret _) ((isPipe_keeps _).bind fun _ => .ite (.stop _) ((fdLocal2Global_keeps _).bind fun _ =>
    Keeps.look.bind fun _ => .ite (fileWrite_keeps move tol _ _ _) (.ret _)))

end

theorem fileTable_setFile_self (s : Fs) (g : Nat) (file : File) : (s.setFile g file).fileTable g = file :=
  update_self _ _ _

theorem fileTable_setFile_of_ne (s : Fs) {g' : Nat} (file : File) (other : g' ≠ g) :
    (s.setFile g file).fileTable g' = s.fileTable g' :=
  update_of_ne other _ _

def Kernel.inSlot (k : Kernel) (g : Nat) : Option Nat := (k.fileTable g).fdInode

/-- No slot is a pipe, and every slot with an inode has a handle of its own on it. -/
structure Fs.Counted (s : Fs) : Prop where
  layout : Layout s.part
  sound : s.toKernel.Sound
  plain : ∀ g, (s.fileTable g).fdFlag ≠ pipeFlag
  slots : ∀ p, ∃ n, n ≤ s.toKernel.users p ∧ Refs s.toKernel.inSlot p n

structure Fs.SameSlot (s t : Fs) (g : Nat) : Prop where
  inSlot : t.toKernel.inSlot g = s.toKernel.inSlot g
  fdFlag : (t.fileTable g).fdFlag = (s.fileTable g).fdFlag
  iNo : ∀ p, s.toKernel.inSlot g = some p → (t.heap p).iNo = (s.heap p).iNo

theorem Fs.SameSlot.refl (s : Fs) (g : Nat) : s.SameSlot s g := ⟨rfl, rfl, fun _ _ => rfl⟩

theorem Fs.SameSlot.trans {u : Fs} (first : s.SameSlot t g) (second : t.SameSlot u g) : s.SameSlot u g where
  inSlot := second.inSlot.trans first.inSlot
  fdFlag := second.fdFlag.trans first.fdFlag
  iNo p here := (second.iNo p (first.inSlot.trans here)).trans (first.iNo p here)

theorem Fs.SameSlot.setFd (same : s.SameSlot t g) (fd : Nat) (named : Option Nat) : s.SameSlot (t.setFd fd named) g :=
  ⟨same.inSlot, same.fdFlag, same.iNo⟩

namespace Fs.Counted

variable {s t t' : Fs} (counted : s.Counted)
include counted

theorem mem (here : s.toKernel.inSlot g = some p) : p ∈ s.openInodes := by
  obtain ⟨n, few, refs⟩ := counted.slots p
  exact Kernel.Sound.mem_of_users p (Nat.ne_of_gt (Nat.lt_of_lt_of_le (refs.pos here) few))

theorem ready (roomy : s.toKernel.Roomy) : s.Ready := ⟨counted.layout, counted.sound, roomy⟩

theorem setFd (fd : Nat) (named : Option Nat) : (s.setFd fd named).Counted :=
  ⟨counted.layout, ⟨counted.sound.fresh, counted.sound.nodup, counted.sound.counted⟩, counted.plain, counted.slots⟩

theorem congr (geometry : t.part.geometry = s.part.geometry) (sound : t.toKernel.Sound)
    (users : ∀ p, s.toKernel.users p ≤ t.toKernel.users p)
    (same : ∀ g, s.SameSlot t g) : t.Counted := by
  refine ⟨counted.layout.congr geometry, sound, fun g => (same g).fdFlag ▸ counted.plain g, fun p => ?_⟩
  obtain ⟨n, few, refs⟩ := counted.slots p
  exact ⟨n, Nat.le_trans few (users p), refs.congr fun g => by rw [(same g).inSlot]⟩

theorem sameSlot_of_holds (holds : s.Holds held t) (g : Nat) : s.SameSlot t g := by
  have inSlot : t.toKernel.inSlot g = s.toKernel.inSlot g := by
    unfold Kernel.inSlot
    rw [holds.fileTable]
  exact ⟨inSlot, by rw [holds.fileTable], fun p here => holds.cache.iNo p (counted.mem here)⟩

theorem of_holds (holds : s.Holds held t) : t.Counted :=
  counted.congr holds.geometry holds.cache.sound (fun p => by rw [holds.cache.users p]; exact Nat.le_add_right _ _)
    (counted.sameSlot_of_holds holds)

theorem of_entered {flag : Word} (free : s.toKernel.inSlot g = none) (plain : flag ≠ pipeFlag)
    (entered : s.Entered held flag g p t) : t.Counted := by
  have inSlot : t.toKernel.inSlot = update s.toKernel.inSlot g (some p) := by
    funext g'
    unfold Kernel.inSlot
    rw [entered.fileTable]
    by_cases here : g' = g
    · subst here
      rw [update_self, update_self]
    · rw [update_of_ne here, update_of_ne here]
  refine ⟨counted.layout.congr entered.geometry, entered.cache.sound, fun g' => ?_, fun q => ?_⟩
  · rw [entered.fileTable]
    grind [counted.plain]
  · obtain ⟨n, few, refs⟩ := counted.slots q
    rw [inSlot, entered.cache.users q]
    by_cases same : q = p
    · subst same
      rw [List.count_cons_self]
      exact ⟨n + 1, by omega, refs.add (by rw [free]; exact Option.some_ne_none q |>.symm)⟩
    · refine ⟨n, by omega, refs.other ?_ fun this => same (Option.some.inj this).symm⟩
      rw [free]
      exact Option.some_ne_none q |>.symm

theorem sameSlot_of_entered {flag : Word} (entered : s.Entered held flag g p t) {g' : Nat} (other : g' ≠ g) :
    s.SameSlot t g' := by
  have same : t.fileTable g' = s.fileTable g' := by rw [entered.fileTable, update_of_ne other]
  have inSlot : t.toKernel.inSlot g' = s.toKernel.inSlot g' := congrArg File.fdInode same
  exact ⟨inSlot, by rw [same], fun q here => entered.cache.iNo q (counted.mem here)⟩

end Fs.Counted

/-- A step that opens and closes nothing, up to the positions in the open files. -/
structure Fs.Moves (s t : Fs) : Prop where
  geometry : t.part.geometry = s.part.geometry
  heap : ∀ p, (s.heap p).SameId (t.heap p)
  brk : t.brk = s.brk
  openInodes : t.openInodes = s.openInodes
  fileTable : ∀ g, t.toKernel.inSlot g = s.toKernel.inSlot g ∧ (t.fileTable g).fdFlag = (s.fileTable g).fdFlag
  fdTable : t.fdTable = s.fdTable

namespace Fs.Moves

theorem refl (s : Fs) : s.Moves s := ⟨rfl, fun _ => .refl _, rfl, rfl, fun _ => ⟨rfl, rfl⟩, rfl⟩

theorem trans {u : Fs} (first : s.Moves t) (second : t.Moves u) : s.Moves u where
  geometry := second.geometry.trans first.geometry
  heap p := (first.heap p).trans (second.heap p)
  brk := second.brk.trans first.brk
  openInodes := second.openInodes.trans first.openInodes
  fileTable g :=
    ⟨(second.fileTable g).1.trans (first.fileTable g).1, (second.fileTable g).2.trans (first.fileTable g).2⟩
  fdTable := second.fdTable.trans first.fdTable

theorem of_steady (steady : s.Steady t) : s.Moves t := by
  refine ⟨steady.geometry, steady.heap, steady.brk, steady.openInodes, fun g => ?_, steady.fdTable⟩
  unfold Kernel.inSlot
  rw [steady.fileTable]
  exact ⟨rfl, rfl⟩

theorem tolerant : Fs.Tolerant Fs.Moves where
  disk s disk := of_steady (Fs.Tolerant.steady.disk s disk)
  blockBit s i value := of_steady (Fs.Tolerant.steady.blockBit s i value)
  inode s p inode same := of_steady (Fs.Tolerant.steady.inode s p inode same)

theorem move (s : Fs) (g : Nat) (pos : Word) : s.Moves (s.setFile g { s.fileTable g with fdPos := pos }) := by
  refine ⟨rfl, fun _ => .refl _, rfl, rfl, fun g' => ?_, rfl⟩
  grind [Kernel.inSlot, fileTable_setFile_self, fileTable_setFile_of_ne]

theorem run {A : Type} {x : FsM A} (keeps : Prog.Keeps Fs.Moves x) {a : A} (returns : x s = .ok (a, t)) : s.Moves t :=
  (keeps.within s).run refl (fun _ _ _ => trans) returns

theorem sameSlot (moves : s.Moves t) (g : Nat) : s.SameSlot t g :=
  ⟨(moves.fileTable g).1, (moves.fileTable g).2, fun p _ => (moves.heap p).iNo⟩

end Fs.Moves

theorem Fs.Counted.of_moves (counted : s.Counted) (moves : s.Moves t) : t.Counted := by
  have held : s.toKernel.Held [] t.toKernel :=
    (Kernel.Held.refl counted.sound).congr (Nat.le_of_eq moves.brk.symm) moves.openInodes
    fun p _ => ⟨(moves.heap p).iOpenCnts, (moves.heap p).iNo⟩
  grind [counted.congr, moves.geometry, held.sound, held.users, moves.sameSlot]

structure Fs.Closes (s : Fs) (g : Nat) (t : Fs) : Prop where
  counted : t.Counted
  roomy : ∀ p, t.toKernel.users p ≤ s.toKernel.users p
  empty : t.toKernel.inSlot g = none
  others : ∀ g', g' ≠ g → s.SameSlot t g'
  fdFlag : (t.fileTable g).fdFlag = (s.fileTable g).fdFlag
  fdTable : t.fdTable = s.fdTable

theorem Fs.Counted.closes (counted : s.Counted) (here : s.toKernel.inSlot g = some p)
    (geometry : t.part.geometry = s.part.geometry) (sound : t.toKernel.Sound)
    (users : ∀ q, t.toKernel.users q = s.toKernel.users q - if q = p then 1 else 0)
    (iNo : ∀ q ∈ s.openInodes, (t.heap q).iNo = (s.heap q).iNo)
    (fileTable : t.fileTable = update s.fileTable g { s.fileTable g with fdInode := none })
    (fdTable : t.fdTable = s.fdTable) :
    s.Closes g t := by
  have self : t.fileTable g = { s.fileTable g with fdInode := none } := by rw [fileTable, update_self]
  have other (g' : Nat) (apart : g' ≠ g) : t.fileTable g' = s.fileTable g' := by rw [fileTable, update_of_ne apart]
  have flag (g' : Nat) : (t.fileTable g').fdFlag = (s.fileTable g').fdFlag := by
    by_cases same : g' = g
    · subst same
      rw [self]
    · rw [other g' same]
  have inSlot : t.toKernel.inSlot = update s.toKernel.inSlot g none := by grind [Kernel.inSlot]
  refine ⟨⟨counted.layout.congr geometry, sound, fun g' => flag g' ▸ counted.plain g', fun q => ?_⟩, fun q =>
    ?_, ?_, fun g' apart => ?_, flag g, fdTable⟩
  · obtain ⟨n, few, refs⟩ := counted.slots q
    rw [inSlot, users q]
    by_cases same : q = p
    · subst same
      rw [if_pos rfl]
      exact ⟨n - 1, Nat.sub_le_sub_right few 1, refs.drop here (nomatch ·)⟩
    · rw [if_neg same, Nat.sub_zero]
      refine ⟨n, few, refs.other ?_ (nomatch ·)⟩
      rw [here]
      exact fun this => same (Option.some.inj this).symm
  · rw [users q]
    exact Nat.sub_le _ _
  · rw [inSlot, update_self]
  · refine ⟨?_, flag g', fun q inside => iNo q (counted.mem inside)⟩
    rw [inSlot, update_of_ne apart]

theorem fileClose_closes (counted : s.Counted) {r : Int} (run : fileClose g s = .ok (r, t)) : s.Closes g t := by
  unfold fileClose at run
  rw [get_bind] at run
  split at run
  · cases run
  · next p here =>
    rw [set_bind, bind_of_ok (inodeClose_eq _ _), modify_bind] at run
    cases run
    have member := counted.mem here
    -- Clearing `write_deny` is no step of the cache.
    have held : s.toKernel.Held [] (s.toKernel.setInode p { s.heap p with writeDeny := 0 }) := by
      refine (Kernel.Held.refl counted.sound).congr (Nat.le_refl _) rfl fun q _ => ?_
      by_cases same : q = p
      · subst same
        rw [Kernel.heap_setInode_self]
        exact ⟨rfl, rfl⟩
      · rw [Kernel.heap_setInode_of_ne _ _ same]
        exact ⟨rfl, rfl⟩
    refine counted.closes here rfl ?_ (fun q => ?_) (fun q old => ?_) rfl rfl
    · have sound := held.sound.closed member
      exact ⟨sound.fresh, sound.nodup, sound.counted⟩
    · exact (Kernel.users_closed held.sound member q).trans (congrArg (· - _) (held.users q))
    · exact (Kernel.iNo_closed _ p q).trans (held.iNo q old)

theorem fdLocal2Global_eq_ok {fd : Nat} :
    fdLocal2Global fd s = .ok (g, t) ↔ fd < maxFilesOpenPerProc ∧ s.fdTable fd = some g ∧ g < maxFileOpen ∧ s = t := by
  unfold fdLocal2Global
  rw [require_bind_eq_ok, get_bind]
  refine and_congr_right fun _ => ?_
  cases s.fdTable fd with
  | none => exact iff_of_false (nomatch ·) fun both => nomatch both.1
  | some g' =>
    dsimp only
    rw [require_bind_eq_ok, run_pure, Except.ok.injEq, Prod.mk.injEq, Option.some.injEq]
    grind

theorem isPipe_eq_ok {fd : Nat} {pipe : Bool} (run : isPipe fd s = .ok (pipe, t)) :
    s = t ∧ fd < maxFilesOpenPerProc ∧ ∃ g, s.fdTable fd = some g ∧ g < maxFileOpen ∧
      pipe = ((s.fileTable g).fdFlag == pipeFlag) := by
  obtain ⟨g, u, find, run⟩ := bind_eq_ok.mp run
  obtain ⟨low, here, small, rfl⟩ := fdLocal2Global_eq_ok.mp find
  cases run
  exact ⟨rfl, low, g, here, small, rfl⟩

theorem sysClose_closes (counted : s.Counted) (high : 2 < fd) {r : Int} (run : sysClose fd s = .ok (r, t)) :
    ∃ g u, s.fdTable fd.toNat = some g ∧ fd.toNat < maxFilesOpenPerProc ∧ s.Closes g u ∧ t = u.setFd fd.toNat none := by
  unfold sysClose at run
  rw [if_neg (by omega)] at run
  obtain ⟨g, s', find, run⟩ := bind_eq_ok.mp run
  obtain ⟨low, here, -, rfl⟩ := fdLocal2Global_eq_ok.mp find
  obtain ⟨ret, u, close, run⟩ := bind_eq_ok.mp run
  rw [modify_bind] at run
  cases run
  obtain ⟨pipe, u', check, close⟩ := bind_eq_ok.mp close
  obtain ⟨rfl, -, g', here', -, rfl⟩ := isPipe_eq_ok check
  rw [if_neg fun same => counted.plain g' (eq_of_beq same)] at close
  exact ⟨g, u, here, low, fileClose_closes counted close, rfl⟩

theorem openChecks_flags {found : Word × PathSearchRecord}
    (run : openChecks stack path flags s = .ok (some found, t)) : flags.toNat ≤ 7 := by
  obtain ⟨-, run⟩ := require_bind_eq_ok.mp run
  split at run
  · cases run
  · exact (require_bind_eq_ok.mp run).1

theorem sysOpen_opens (ready : s.Ready)
    (run : sysOpen stack path flags s = .ok (fd, t)) :
    (fd = -1 ∧ ∃ held, s.Holds held t) ∨ flags.toNat ≤ 7 ∧ ∃ held deny p, s.Opens held flags deny p fd t := by
  obtain ⟨found, u, checks, run⟩ := bind_eq_ok.mp run
  have holds := openChecks_holds ready checks
  cases found with
  | none =>
    cases run
    exact .inl ⟨rfl, _, holds⟩
  | some found =>
    have opens := openFound_opens ready holds run
    grind [openChecks_flags]

structure Fs.OpensSlot (s : Fs) (flags : Word) (fd : Int) (t : Fs) : Prop where
  counted : t.Counted
  others : ∀ g, s.toKernel.inSlot g ≠ none → s.SameSlot t g
  fds : (fd = -1 ∧ t.fdTable = s.fdTable) ∨ ∃ d g p : Nat, fd = d ∧ 3 ≤ d ∧ d < maxFilesOpenPerProc ∧
    s.fdTable d = none ∧
    t.fdTable = update s.fdTable d (some g) ∧ s.toKernel.inSlot g = none ∧ t.toKernel.inSlot g = some p

theorem sysOpen_slots (counted : s.Counted) (roomy : s.toKernel.Roomy)
    (run : sysOpen stack path flags s = .ok (fd, t)) : s.OpensSlot flags fd t := by
  rcases sysOpen_opens (counted.ready roomy) run with ⟨rfl, held, holds⟩ | ⟨small, held, deny, p, opens⟩
  · exact ⟨counted.of_holds holds, fun g _ => counted.sameSlot_of_holds holds g, .inl ⟨rfl, holds.fdTable⟩⟩
  · have plain : flags ≠ pipeFlag := by
      rintro rfl
      exact absurd small (by decide)
    have apart {g g' : Nat} (slot : s.toKernel.freeSlot = some g) (some : s.toKernel.inSlot g' ≠ none) : g' ≠ g := by
      rintro rfl
      exact some (freeSlot_some slot).2.2
    cases opens with
    | full none holds =>
        exact ⟨counted.of_holds holds, fun g _ => counted.sameSlot_of_holds holds g, .inl ⟨rfl, holds.fdTable⟩⟩
    | kept slot why entered =>
      exact ⟨counted.of_entered (freeSlot_some slot).2.2 plain entered, fun g some =>
        counted.sameSlot_of_entered entered (apart slot some),
        .inl ⟨rfl, entered.fdTable⟩⟩
    | @given g d u slot free allowed entered =>
      obtain ⟨high, low, unused⟩ := freeFd_some free
      refine ⟨(counted.of_entered (freeSlot_some slot).2.2 plain entered).setFd _ _,
        fun g' some => (counted.sameSlot_of_entered entered (apart slot some)).setFd _ _,
          .inr ⟨d, g, p, rfl, high, low, unused, ?_, (freeSlot_some slot).2.2, ?_⟩⟩
      · exact congrArg (update · d (.some g)) entered.fdTable
      · have table : (u.fileTable g).fdInode = .some p := by rw [entered.fileTable, update_self]
        exact table

def Fs.NotOpen (s : Fs) (fd : Int) : Prop := fd < 0 ∨ 8 ≤ fd ∨ s.fdTable fd.toNat = none

/-- The entry of `fd_table` is -1, or there is no such entry. -/
def strayFault (fd : Int) : Fault := if fd < 8 then .assertion else .undefined

theorem Fs.NotOpen.fdLocal2Global {s : Fs} {fd : Int} (closed : s.NotOpen fd) (named : 0 ≤ fd) :
    fdLocal2Global fd.toNat s = .error (strayFault fd) := by
  unfold strayFault
  split
  case isTrue low =>
    have empty : s.fdTable fd.toNat = none := by
      rcases closed with below | above | empty
      · omega
      · omega
      · exact empty
    rw [LaiMiniOs.fdLocal2Global, require_bind (by rw [maxFilesOpenPerProc]; omega), get_bind, empty]
    rfl
  case isFalse high =>
    exact bind_of_error (by rw [run_require, if_neg (by rw [maxFilesOpenPerProc]; omega)])

/-- The call returns this answer and changes nothing exactly when it tests the descriptor itself. Otherwise
it comes to `fd_local2global`, and the fault is there. -/
def RefusesWhen {A : Type} (tested : Prop) (call : FsM A) (answer : A) (fd : Int) (s : Fs) : Prop :=
  (call s = .ok (answer, s) ↔ tested) ∧ (¬tested → call s = .error (strayFault fd))

theorem refusesWhen_ite {A : Type} {tested : Prop} [Decidable tested] {rest : FsM A} {answer : A} {fd : Int} {s : Fs}
    (stray : ¬tested → rest s = .error (strayFault fd)) :
    RefusesWhen tested (if tested then pure answer else rest) answer fd s := by
  unfold RefusesWhen
  split
  case isTrue own => exact ⟨iff_of_true rfl own, fun other => absurd own other⟩
  case isFalse other =>
    rw [stray other]
    exact ⟨iff_of_false (nomatch ·) other, fun _ => rfl⟩

/-- A descriptor that is not open is refused by the calls that test it themselves; the others end in
`fd_local2global`, two of them through `is_pipe`. -/
theorem refused_iff {s : Fs} {fd : Int} (closed : s.NotOpen fd) (buf : Memory) (count offset : Word)
    (whence : Whence) :
    RefusesWhen (fd ≤ 2) (sysClose fd) (-1) fd s ∧
      RefusesWhen (fd < 0 ∨ fd = 1 ∨ fd = 2) (sysRead fd count) none fd s ∧
      RefusesWhen (fd < 0) (sysWrite fd buf count) (-1) fd s ∧
      RefusesWhen (fd < 0) (sysLseek fd offset whence) (-1) fd s := by
  have stray {A : Type} (f : Nat → FsM A) (named : 0 ≤ fd) :
      (fdLocal2Global fd.toNat >>= f) s = .error (strayFault fd) :=
    bind_of_error (closed.fdLocal2Global named)
  refine ⟨refusesWhen_ite fun other => stray _ (by omega),
    refusesWhen_ite fun other => bind_of_error (stray _ (by omega)),
    refusesWhen_ite fun other => bind_of_error (stray _ (by omega)),
    refusesWhen_ite fun other => stray _ (by omega)⟩

theorem refused_negative : smallTree.NotOpen (-1) ∧ sysClose (-1) smallTree = .ok (-1, smallTree) ∧
    sysLseek (-1) 0 .seekSet smallTree = .ok (-1, smallTree) := by
  have closed : smallTree.NotOpen (-1) := .inl (by decide)
  obtain ⟨close, -, -, seek⟩ := refused_iff closed Memory.zero 0 0 .seekSet
  exact ⟨closed, close.1.mpr (by decide), seek.1.mpr (by decide)⟩

/-- No file is open: the entry 3 is -1, and there is no entry 8. -/
theorem refused_not_three : smallTree.NotOpen 3 ∧ sysClose 3 smallTree = .error .assertion ∧
    smallTree.NotOpen 8 ∧ sysRead 8 1 smallTree = .error .undefined :=
  ⟨.inr (.inr rfl), rfl, .inr (.inl (by decide)), rfl⟩

end LaiMiniOs
