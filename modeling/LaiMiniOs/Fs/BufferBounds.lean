import LaiMiniOs.Fs.Buffers

/-! The stores of `file_write` stay inside their buffers, all but one.

`inode_sync` reads one sector or two into the buffer that it is given, by the place of the record in
the inode table. Its callers hand it two sectors, except `file_write`, whose `io_buf` has one.
-/

set_option autoImplicit false

namespace LaiMiniOs
open Foundation Prog

variable {p fdIdx : Nat} {src : Memory} {t : Traced Fs Access} {count : Word}

/-- `all_blocks` has `BLOCK_SIZE + 48` bytes, `io_buf` as many as its owner asked for. -/
def Access.Inside (ioBytes : Nat) (e : Access) : Prop :=
  match e.buffer with
  | .allBlocks => e.offset + e.length ≤ 512 + 48
  | .ioBuf => e.offset + e.length ≤ ioBytes
  | .user => True

instance (ioBytes : Nat) : (e : Access) → Decidable (e.Inside ioBytes)
  | ⟨.allBlocks, _, _⟩ => inferInstanceAs (Decidable (_ ≤ _))
  | ⟨.ioBuf, _, _⟩ => inferInstanceAs (Decidable (_ ≤ _))
  | ⟨.user, _, _⟩ => inferInstanceAs (Decidable True)

/-- Record `n` of the inode table does not end in the sector in which it starts. -/
def Straddles (n : Nat) : Prop := 512 - n * inodeSize % 512 < inodeSize

instance (n : Nat) : Decidable (Straddles n) := inferInstanceAs (Decidable (_ < _))

/-- The functions that get an `io_buf` for `inode_sync` or `inode_delete`. `delete_dir_entry` is handed
that of `sys_unlink` or of `dir_remove`. -/
inductive BufferOwner where
  | fileWrite
  | fileCreate
  | sysMkdir
  | sysUnlink
  | dirRemove
  | inodeRelease
  deriving DecidableEq

def BufferOwner.ioBytes : BufferOwner → Nat
  | fileWrite => 512
  | fileCreate => 1024
  | sysMkdir => 512 * 2
  | sysUnlink => 512 + 512
  | dirRemove => 512 * 2
  | inodeRelease => 1024

section
variable {ioBytes : Nat}

section
-- What is said of every access to `all_blocks` that is inside it.
variable {P : Access → Prop} (place : ∀ offset length, offset + length ≤ 512 + 48 → P ⟨.allBlocks, offset, length⟩)
include place

theorem growBlocksLogged_keeps {b left : Nat} (blocks : Nat → Word) (small : 0 < left → b + left ≤ 140) :
    Keeps (Adds P) (growBlocksLogged p blocks b left) := by
  induction left generalizing blocks b with
  | zero => exact .ret _
  | succ left ih =>
    have below := small (Nat.succ_pos _)
    have store : P ⟨.allBlocks, 4 * b, 4⟩ := place _ _ (by omega)
    refine .bind (keeps_quiet _) fun lba =>
      .ite (.ret _) (.bind (keeps_quiet _) fun _ => .bind (keeps_note store) fun _ => ?_)
    exact .bind (keeps_quiet _) fun _ => .bind (keeps_quiet _) fun _ => ih _ (by omega)

theorem readTableLogged_keeps (lba : Word) : Keeps (Adds P) (readTableLogged lba) :=
  .bind (keeps_quiet _) fun _ => .bind (keeps_note (place _ _ (by decide))) fun _ => .ret _

theorem collectForWriteLogged_keeps (p : Nat) {has will : Nat} (positive : 1 ≤ has) (small : will ≤ 140) :
    Keeps (Adds P) (collectForWriteLogged p has will) := by
  have store (low : has - 1 < 13) : P ⟨.allBlocks, 4 * (has - 1), 4⟩ := place _ _ (by omega)
  have grow (blocks : Nat → Word) : Keeps (Adds P) (growBlocksLogged p blocks has (will - has)) :=
    growBlocksLogged_keeps place blocks (by omega)
  refine .bind (keeps_quiet _) fun s => ?_
  by_cases same : will = has
  · rw [if_pos same]
    by_cases low : has ≤ 12
    · rw [if_pos low]
      exact .bind (keeps_note (store (by omega))) fun _ => .ret _
    · rw [if_neg low]
      exact .bind (keeps_quiet _) fun _ => .bind (readTableLogged_keeps place _) fun _ => .ret _
  · rw [if_neg same]
    by_cases direct : will ≤ 12
    · rw [if_pos direct]
      exact keeps_check fun low => .bind (keeps_quiet _) fun _ => .bind (keeps_note (store low)) fun _ => grow _
    · rw [if_neg direct]
      by_cases low : has ≤ 12
      · rw [if_pos low]
        refine .bind (keeps_note (store (by omega))) fun _ => .bind (keeps_quiet _) fun lba => .ite (.ret _) ?_
        refine .bind (keeps_quiet _) fun _ => .bind (keeps_quiet _) fun _ => .bind (keeps_quiet _) fun _ => ?_
        refine .bind (grow _) fun blocks => ?_
        cases blocks with
        | none => exact .ret _
        | some blocks => exact .bind (keeps_quiet _) fun _ => .ret _
      · rw [if_neg low]
        refine .bind (keeps_quiet _) fun _ => .bind (readTableLogged_keeps place _) fun _ => ?_
        refine .bind (grow _) fun blocks => ?_
        cases blocks with
        | none => exact .ret _
        | some blocks => exact .bind (keeps_quiet _) fun _ => .ret _

end

theorem chunkBufLogged_keeps {P : Access → Prop} (whole : P ⟨.ioBuf, 0, 512⟩) (first : Bool) (lba : Word) :
    Keeps (Adds P) (chunkBufLogged first lba) := by
  refine .bind (keeps_note whole) fun _ => .ite ?_ (.ret _)
  exact .bind (keeps_quiet _) fun _ => .bind (keeps_note whole) fun _ => .ret _

theorem writeLoopLogged_inside (fdIdx p : Nat) (blocks : Nat → Word) (src : Memory) (count from_ : Nat) (first : Bool) :
    Keeps (Adds (Access.Inside 512)) (writeLoopLogged fdIdx p blocks src count from_ first) := by
  generalize left : count - from_ = n
  induction n using Nat.strongRecOn generalizing from_ first with
  | ind n ih =>
    unfold writeLoopLogged
    by_cases more : from_ < count
    · rw [if_pos more]
      -- A chunk ends with the sector at the latest.
      have chunk (z : Nat) : Access.Inside 512 ⟨.ioBuf, z % 512, min (count - from_) (512 - z % 512)⟩ := by
        simp only [Access.Inside]
        omega
      refine .bind (keeps_quiet _) fun s => .bind (keeps_quiet _) fun _ =>
        .bind (chunkBufLogged_keeps (Nat.le_refl _) _ _) fun _ => ?_
      refine .bind (keeps_note trivial) fun _ => .bind (keeps_note (chunk _)) fun _ => ?_
      refine .bind (keeps_quiet _) fun _ => .bind (keeps_quiet _) fun _ => .bind (keeps_quiet _) fun _ => ?_
      exact ih _ (by omega) _ _ rfl
    · rw [if_neg more]
      exact .ret _

theorem writeLoopLogged_takes {count from_ : Nat} {blocks : Nat → Word} {first : Bool}
    {u : Traced Fs Access} (run : writeLoopLogged fdIdx p blocks src count from_ first t = .ok ((), u)) :
    userBytes u.log = userBytes t.log ++ List.range' from_ (count - from_) := by
  generalize left : count - from_ = n
  induction n using Nat.strongRecOn generalizing from_ first t with
  | ind n ih =>
    unfold writeLoopLogged at run
    by_cases more : from_ < count
    · rw [if_pos more] at run
      obtain ⟨s, t₁, look, run⟩ := bind_eq_ok.mp run
      obtain ⟨_, t₂, check, run⟩ := bind_eq_ok.mp run
      obtain ⟨_, t₃, buffer, run⟩ := bind_eq_ok.mp run
      obtain ⟨stores, log, other⟩ : Adds (fun e : Access => e.buffer ≠ .user) t₂ t₃ :=
        ((chunkBufLogged_keeps (by decide) _ _).within _).run Adds.refl Adds.trans buffer
      rw [note, modify_bind, note, modify_bind] at run
      generalize chunk : min (count - from_) (512 - (s.heap p).iSize.toNat % 512) = c at run
      obtain ⟨_, t₄, write, run⟩ := bind_eq_ok.mp run
      obtain ⟨_, t₅, grow, run⟩ := bind_eq_ok.mp run
      obtain ⟨_, t₆, seek, run⟩ := bind_eq_ok.mp run
      have round : userBytes t₆.log = userBytes t.log ++ List.range' from_ c := by
        rw [(quiet_eq_ok.mp seek).2, (quiet_eq_ok.mp grow).2, (quiet_eq_ok.mp write).2, log, (quiet_eq_ok.mp check).2,
          (quiet_eq_ok.mp look).2]
        simp only [userBytes_append, userBytes_of_other other, List.append_nil]
        simp [userBytes]
      grind
    · rw [if_neg more] at run
      cases run
      have none : n = 0 := by omega
      rw [none, List.range'_zero, List.append_nil]

theorem writeDataLogged_inside (fdIdx : Nat) (src : Memory) (count : Word) :
    Keeps (Adds (Access.Inside 512)) (writeDataLogged fdIdx src count) := by
  refine .bind (keeps_quiet _) fun s => ?_
  cases (s.fileTable fdIdx).fdInode with
  | none => exact .stop _
  | some p =>
    refine .bind (keeps_quiet _) fun s => .ite (.ret _) (.bind (keeps_quiet _) fun first => .ite (.ret _) ?_)
    refine keeps_check fun small =>
      .bind (collectForWriteLogged_keeps (fun _ _ => id) p (by omega) small) fun blocks => ?_
    cases blocks with
    | none => exact .ret _
    | some blocks => exact .bind (keeps_quiet _) fun _ => .bind (writeLoopLogged_inside _ _ _ _ _ _ _) fun _ => .ret _

theorem keeps_locate {A : Type} {R : Traced Fs Access → Traced Fs Access → Prop} {inodeNo : Word}
    {f : InodePosition → LogM A}
    (rest : ∀ part, Keeps R (f (positionOf part inodeNo.toNat))) : Keeps R (quiet (inodeLocate inodeNo) >>= f) := by
  refine ⟨fun t => ?_⟩
  unfold inodeLocate
  by_cases small : inodeNo.toNat < 4096
  · simp only [Prog.assert, Prog.require, if_pos small]
    exact (rest t.state.part).within t
  · simp only [Prog.assert, Prog.require, if_neg small]
    trivial

def recordStores (part : Partition) (n : Nat) : List Access :=
  [⟨.ioBuf, 0, 512 * (positionOf part n).sects⟩, ⟨.ioBuf, (positionOf part n).offSize, inodeSize⟩]

theorem recordStores_inside (ioBytes : Nat) (part : Partition) (n : Nat) :
    (∀ e ∈ recordStores part n, e.Inside ioBytes) ↔ 1024 ≤ ioBytes ∨ (512 ≤ ioBytes ∧ ¬ Straddles n) := by
  have sects : (positionOf part n).sects = if Straddles n then 2 else 1 := by
    simp only [InodePosition.sects, positionOf, decide_eq_true_eq]
    rfl
  simp only [recordStores, List.forall_mem_cons, Access.Inside, List.not_mem_nil, false_implies, implies_true,
    and_true, sects]
  grind [Straddles, positionOf, inodeSize]

theorem updateRecordLogged_inside (inodeNo : Word) (image : Memory) (large : 1024 ≤ ioBytes) :
    Keeps (Adds (Access.Inside ioBytes)) (updateRecordLogged inodeNo image) := by
  refine keeps_locate fun part => ?_
  have inside := (recordStores_inside ioBytes part inodeNo.toNat).mpr (.inl large)
  simp only [recordStores, List.forall_mem_cons] at inside
  refine .bind (keeps_quiet _) fun _ => .bind (keeps_quiet _) fun _ => .bind (keeps_quiet _) fun _ => ?_
  exact .bind (keeps_note inside.1) fun _ => .bind (keeps_note inside.2.1) fun _ => keeps_quiet _

theorem inodeSyncLogged_eq (layout : Layout t.state.part) (inode : Inode) :
    inodeSyncLogged inode t = .ok ((), ⟨putRecord t.state (syncSlot inode) inode.pureInode.image,
      t.log ++ recordStores t.state.part (syncSlot inode)⟩) := by
  have number : ((inode.iNo.setWidth 8).setWidth 32 : Word).toNat = syncSlot inode := by
    simp only [syncSlot, BitVec.toNat_setWidth]
    omega
  obtain ⟨log, run⟩ := (inodeSync_traces inode).exists_log (inodeSync_eq layout inode)
  rw [run]
  unfold inodeSyncLogged updateRecordLogged at run
  obtain ⟨pos, t₁, locate, run⟩ := bind_eq_ok.mp run
  obtain ⟨found, same₁⟩ := quiet_eq_ok.mp locate
  obtain ⟨-, place⟩ := inodeLocate_eq_ok.mp found
  rw [Prod.mk.injEq] at place
  obtain ⟨_, t₂, look, run⟩ := bind_eq_ok.mp run
  obtain ⟨-, same₂⟩ := quiet_eq_ok.mp look
  obtain ⟨_, t₃, check, run⟩ := bind_eq_ok.mp run
  obtain ⟨-, same₃⟩ := quiet_eq_ok.mp check
  obtain ⟨_, t₄, read, run⟩ := bind_eq_ok.mp run
  obtain ⟨-, same₄⟩ := quiet_eq_ok.mp read
  rw [note, modify_bind, note, modify_bind] at run
  grind [quiet_eq_ok, recordStores]

theorem writeDataLogged_returns {q : Nat} {u : Traced Fs Access}
    (layout : Layout t.state.part) (held : (t.state.fileTable fdIdx).fdInode = some p)
    (run : writeDataLogged fdIdx src count t = .ok (some q, u)) :
    q = p ∧ ∃ s₁ blocks s₂ v, Writes fdIdx p src count t.state s₁ blocks s₂ u.state
        (putRecord u.state (syncSlot (u.state.heap p)) (u.state.heap p).pureInode.image) ∧
      Adds (fun e : Access => e.buffer ≠ .user) t v ∧ writeLoopLogged fdIdx p blocks src count.toNat 0 true v =
        .ok ((), u) := by
  have look (t : Traced Fs Access) : (quiet get : LogM Fs) t = .ok (t.state, t) := rfl
  rw [writeDataLogged, bind_of_ok (look t)] at run
  simp only [held] at run
  rw [bind_of_ok (look t)] at run
  by_cases limit : 512 * 140 < ((t.state.heap p).iSize + count).toNat
  · rw [if_pos limit] at run
    cases run
  · rw [if_neg limit] at run
    obtain ⟨_, t₁, first, run⟩ := bind_eq_ok.mp run
    obtain ⟨_, here, takes⟩ := (firstBlock_eq_ok layout).mp (quiet_eq_ok.mp first).1
    cases here
    simp only [Bool.not_true, Bool.false_eq_true, if_false] at run
    obtain ⟨_, t₂, check, run⟩ := bind_eq_ok.mp run
    obtain ⟨small, here⟩ := require_eq_ok.mp (quiet_eq_ok.mp check).1
    have layout₁ := layout.congr takes.geometry
    obtain ⟨_, t₃, step, run⟩ := bind_eq_ok.mp run
    have collect := (collectForWrite_traces p _ _).returns step
    rw [show t₂.state = t₁.state from congrArg Prod.snd here] at collect
    obtain ⟨blocks, _, here, collects⟩ := (collectForWrite_eq_ok layout₁).mp collect
    obtain ⟨rfl, rfl⟩ := Prod.mk.inj here
    dsimp only at run
    obtain ⟨_, t₄, seek, run⟩ := bind_eq_ok.mp run
    obtain ⟨_, t₅, loop, run⟩ := bind_eq_ok.mp run
    cases run
    have moves := (writeLoop_traces fdIdx p blocks src count.toNat 0 true).returns loop
    rw [show t₄.state = t₃.state.seekLast fdIdx p
      from (congrArg Prod.snd (Except.ok.inj (quiet_eq_ok.mp seek).1)).symm] at moves
    obtain ⟨more, log, other⟩ : Adds (fun e : Access => e.buffer ≠ .user) t₂ t₃ :=
      ((collectForWriteLogged_keeps (fun _ _ _ => by simp) p (by omega) small).within _).run Adds.refl Adds.trans step
    have before : t₂.log = t.log := (quiet_eq_ok.mp check).2.trans (quiet_eq_ok.mp first).2
    exact ⟨rfl, _, blocks, _, t₄, ⟨small, takes, collects, moves, rfl⟩,
      ⟨more, by rw [(quiet_eq_ok.mp seek).2, log, before], other⟩, loop⟩

end

/-! A write within the limit makes no access outside an array: the only checks that are left to fail are
assertions. -/

section
variable {s : Fs}

theorem blockBitmapAlloc_avoids : Avoids .undefined blockBitmapAlloc := by
  have take : Avoids .undefined (takeBit .block) := by
    refine .bind .look fun s => ?_
    cases found : (s.part.bitmap .block).scan 1 with
    | error fault =>
      have asserts : fault = .assertion := by grind [Bitmap.scan]
      rw [asserts]
      intro same
      cases same
    | ok bit =>
      cases bit with
      | none => exact .ret _
      | some i => exact .bind (.change _) fun _ => .ret _
  refine .bind take fun found => ?_
  cases found with
  | none => exact .ret _
  | some i => exact .bind .look fun _ => .ret _

theorem enterBlock_avoids (p b : Nat) (lba : Word) : Avoids .undefined (enterBlock p b lba) :=
  .ite (.bind .look fun _ => .bind (.check _ (by decide)) fun _ => .change _) (.ret _)

theorem growBlocks_ne_undefined (layout : Layout s.part) (p : Nat) (blocks : Nat → Word) (b left : Nat) :
    growBlocks p blocks b left s ≠ .error .undefined := by
  induction left generalizing s blocks b with
  | zero => exact pure_ne_error _ _
  | succ left ih =>
    refine bind_ne_error (blockBitmapAlloc_avoids.run s) fun lba t alloc => ?_
    obtain ⟨i, lowest, rfl, rfl⟩ := of_blockBitmapAlloc alloc
    rw [run_ite]
    split
    · exact pure_ne_error _ _
    · refine bind_ne_error ((enterBlock_avoids p b _).run _) fun _ t enter => ?_
      obtain ⟨-, here⟩ := enterBlock_eq_ok.mp enter
      cases here
      rw [get_bind, bind_of_ok (sync_setBit layout lowest.inside (part_giveSector _ _ _ _))]
      refine ih (layout.congr ?_) _ _
      rw [geometry_syncBits, part_giveSector, geometry_setBit]

theorem firstBlock_ne_undefined (layout : Layout s.part) (p : Nat) : firstBlock p s ≠ .error .undefined := by
  rw [firstBlock, get_bind, run_ite]
  split
  · refine bind_ne_error (blockBitmapAlloc_avoids.run s) fun lba t alloc => ?_
    obtain ⟨i, lowest, rfl, rfl⟩ := of_blockBitmapAlloc alloc
    rw [run_ite]
    split
    · exact pure_ne_error _ _
    · rw [modify_bind, get_bind]
      refine check_ne_error (by decide) fun _ => ?_
      have store := sync_setBit layout lowest.inside
        (t := (s.setBit .block i true).setInode p (((s.setBit .block i true).heap p).setSector 0 (s.lbaOf i))) rfl
      rw [bind_of_ok store]
      exact pure_ne_error _ _
  · exact pure_ne_error _ _

theorem collectForWrite_ne_undefined (layout : Layout s.part) (p : Nat) {has will : Nat} (grows : has ≤ will) :
    collectForWrite p has will s ≠ .error .undefined := by
  -- The write of the table after the blocks were allocated.
  have table (lba : Word) (blocks : Nat → Word) :
      Avoids .undefined (do ideWrite lba (tableImage blocks) 1; return some blocks : FsM (Option (Nat → Word))) :=
    .bind (ideWriteShared_avoids (by decide) _ _ _) fun _ => .ret _
  rw [collectForWrite, get_bind]
  by_cases same : will = has
  · rw [if_pos same]
    refine Avoids.run (.ite (.ret _) ?_) s
    exact .bind (.check _ (by decide)) fun _ => .bind (ideRead_avoids (by decide) _ _) fun _ => .ret _
  · rw [if_neg same]
    by_cases direct : will ≤ 12
    · rw [if_pos direct, bind_of_ok (run_require_of (by omega) s)]
      refine check_ne_error (by decide) fun _ => ?_
      exact growBlocks_ne_undefined layout p _ _ _
    · rw [if_neg direct]
      by_cases low : has ≤ 12
      · rw [if_pos low]
        refine bind_ne_error (blockBitmapAlloc_avoids.run s) fun lba t alloc => ?_
        obtain ⟨i, lowest, here⟩ := blockBitmapAlloc_eq_ok.mp alloc
        cases here
        rw [run_ite]
        split
        · exact pure_ne_error _ _
        · rw [get_bind]
          refine check_ne_error (by decide) fun _ => ?_
          rw [modify_bind]
          refine bind_ne_error ?_ fun blocks t _ => ?_
          · exact growBlocks_ne_undefined (s := (s.setBit .block i true).setInode p _)
              (layout.congr (geometry_setBit s .block i true)) p _ _ _
          · cases blocks with
            | none => exact pure_ne_error _ _
            | some blocks => exact (table _ blocks).run t
      · rw [if_neg low]
        refine check_ne_error (by decide) fun _ => ?_
        refine bind_ne_error ((ideRead_avoids (by decide) _ _).run s) fun _ t read => ?_
        cases (ideRead_eq_ok.mp read).2
        refine bind_ne_error (growBlocks_ne_undefined layout p _ _ _) fun blocks t _ => ?_
        cases blocks with
        | none => exact pure_ne_error _ _
        | some blocks => exact (table _ blocks).run t

theorem writeLoop_ne_undefined {count from_ : Nat} {blocks : Nat → Word} {first : Bool}
    (fits : (s.heap p).iSize.toNat + (count - from_) ≤ 512 * 140) :
    writeLoop fdIdx p blocks src count from_ first s ≠ .error .undefined := by
  generalize left : count - from_ = n at fits
  induction n using Nat.strongRecOn generalizing s from_ first with
  | ind n ih =>
    by_cases more : from_ < count
    · have inside : (s.heap p).iSize.toNat / 512 < 140 := by omega
      have ends := chunkSize_ends (z := (s.heap p).iSize.toNat) (n := n) (by omega)
      have buffer : Avoids .undefined (chunkBuf first (blocks ((s.heap p).iSize.toNat / 512))) :=
        .ite (ideRead_avoids (by decide) _ _) (.ret _)
      unfold writeLoop
      rw [if_pos more, get_bind, bind_of_ok (run_require_of inside s)]
      refine bind_ne_error (buffer.run s) fun buf t read => ?_
      have same : t = s := by
        cases first
        · cases read
          rfl
        · cases (ideRead_eq_ok.mp read).2
          rfl
      subst same
      refine bind_ne_error ((ideWriteShared_avoids (by decide) _ _ _).run t) fun _ u write => ?_
      obtain ⟨-, here⟩ := ideWrite_eq_ok.mp write
      cases here
      rw [modify_bind, modify_bind]
      refine ih (n - chunkSize (t.heap p).iSize.toNat n) (by omega) (by rw [← left]; unfold chunkSize; omega) ?_
      have grows := size_writeChunk t fdIdx p (blocks ((t.heap p).iSize.toNat / 512)) buf (src.window from_) n inside
      rw [← left] at grows ends ⊢
      refine Nat.le_trans (Nat.le_of_eq (congrArg (· + _) grows)) ?_
      omega
    · rw [writeLoop_done (by omega)]
      exact pure_ne_error _ _

theorem fileWrite_ne_undefined (layout : Layout s.part)
    (held : (s.fileTable fdIdx).fdInode = some p) (fits : (s.heap p).iSize.toNat + count.toNat ≤ 512 * 140) :
    fileWrite fdIdx src count s ≠ .error .undefined := by
  have sum : ((s.heap p).iSize + count).toNat = (s.heap p).iSize.toNat + count.toNat := by
    rw [BitVec.toNat_add]
    omega
  rw [fileWrite, get_bind]
  simp only [held]
  rw [get_bind, if_neg (by omega)]
  refine bind_ne_error (firstBlock_ne_undefined layout p) fun _ t first => ?_
  obtain ⟨_, here, takes⟩ := (firstBlock_eq_ok layout).mp first
  cases here
  have layout₁ := layout.congr takes.geometry
  simp only [Bool.not_true, Bool.false_eq_true, if_false]
  refine check_ne_error (by decide) fun small => ?_
  refine bind_ne_error (collectForWrite_ne_undefined layout₁ p (by rw [sum]; omega)) fun _ u collect => ?_
  obtain ⟨blocks, _, here, collects⟩ := (collectForWrite_eq_ok layout₁).mp collect
  cases here
  have layout₂ := layout₁.congr (collects.geometry layout₁)
  have size : ((u.seekLast fdIdx p).heap p).iSize = (s.heap p).iSize := (collects.iSize layout₁).trans takes.iSize
  dsimp only
  rw [modify_bind]
  refine bind_ne_error (writeLoop_ne_undefined (s := u.seekLast fdIdx p) (by rw [size]; omega)) fun _ v moves => ?_
  have layout₃ : Layout v.part := by
    rw [part_writeLoop moves]
    exact layout₂
  rw [get_bind, bind_of_ok (inodeSync_eq layout₃ _)]
  exact pure_ne_error _ _

/-- The stores of a write that comes to its end are those before `inode_sync` and those of `inode_sync`. -/
theorem fileWriteLogged_events {s' : Fs} (layout : Layout s.part)
    (held : (s.fileTable fdIdx).fdInode = some p) (run : fileWrite fdIdx src count s = .ok ((count.toNat : Int), s')) :
    ∃ log part, (fileWriteLogged fdIdx src count).events s = log ++ recordStores part (syncSlot (s.heap p)) ∧
      (∀ e ∈ log, e.Inside 512) ∧ userBytes log = List.range count.toNat := by
  obtain ⟨log, logged⟩ := (fileWrite_traces fdIdx src count).exists_log (t := ⟨s, []⟩) run
  have ends : (fileWriteLogged fdIdx src count).events s = log := congrArg Traced.log (last_of_ok logged)
  obtain ⟨found, u, data, rest⟩ := bind_eq_ok.mp logged
  obtain ⟨more, noted, inside⟩ := ((writeDataLogged_inside fdIdx src count).within _).run Adds.refl Adds.trans data
  cases found with
  | none =>
    have failed : (-1 : Int) = count.toNat := congrArg Prod.fst (Except.ok.inj rest)
    omega
  | some q =>
    obtain ⟨rfl, s₁, blocks, s₂, v, writes, other, loop⟩ := writeDataLogged_returns layout held data
    have layout₁ := layout.congr writes.first.geometry
    have layout₂ := layout₁.congr (writes.collects.geometry layout₁)
    have layout₃ : Layout u.state.part := by
      rw [part_writeLoop writes.moves]
      exact layout₂
    have iNo : (u.state.heap q).iNo = (s.heap q).iNo := by
      have same := congrArg Inode.iNo (writes.inode layout)
      exact same
    have number : syncSlot (u.state.heap q) = syncSlot (s.heap q) := by
      rw [syncSlot, syncSlot, iNo]
    have look : (quiet get : LogM Fs) u = .ok (u.state, u) := rfl
    dsimp only at rest
    rw [bind_of_ok look, bind_of_ok (inodeSyncLogged_eq layout₃ _), number] at rest
    have last : u.log ++ recordStores u.state.part (syncSlot (s.heap q)) = log :=
      congrArg (fun r : Int × Traced Fs Access => r.2.log) (Except.ok.inj rest)
    have same : u.log = more := noted
    refine ⟨more, u.state.part, by rw [ends, ← last, same], inside, ?_⟩
    obtain ⟨before, log', user⟩ := other
    have none : userBytes v.log = [] := by
      rw [log']
      exact userBytes_of_other user
    rw [← same, writeLoopLogged_takes loop, none, List.nil_append, Nat.sub_zero, List.range_eq_range']

theorem fileWrite_inside_iff {s' : Fs} (layout : Layout s.part) (held : (s.fileTable fdIdx).fdInode = some p)
    (run : fileWrite fdIdx src count s = .ok ((count.toNat : Int), s')) :
    (∀ e ∈ (fileWriteLogged fdIdx src count).events s, e.Inside 512) ↔ ¬ Straddles (syncSlot (s.heap p)) := by
  obtain ⟨log, part, same, inside, -⟩ := fileWriteLogged_events layout held run
  rw [same]
  constructor
  · intro all
    have stores := (recordStores_inside 512 part _).mp fun e member => all e (List.mem_append_right _ member)
    exact (stores.resolve_left (by decide)).2
  · intro single e member
    have stores := (recordStores_inside 512 part _).mpr (.inr ⟨Nat.le_refl _, single⟩)
    exact (List.mem_append.mp member).elim (inside e) (stores e)

/-- Every store of a write is inside its buffer exactly when the write does not come to the end of the data, or
the record of the inode is in one sector. The other owners of a buffer have two sectors for a record. -/
theorem fileWrite_stores_iff {fdIdx p : Nat} {src : Memory} {count : Word} (layout : Layout s.part)
    (held : (s.fileTable fdIdx).fdInode = some p) :
    ((∀ e ∈ (fileWriteLogged fdIdx src count).events s, e.Inside BufferOwner.fileWrite.ioBytes) ↔
      ((∃ s', fileWrite fdIdx src count s = .ok ((count.toNat : Int), s')) → ¬ Straddles (syncSlot (s.heap p)))) ∧
    ((s.heap p).iSize.toNat + count.toNat ≤ 512 * 140 → fileWrite fdIdx src count s ≠ .error .undefined) ∧
    ∀ owner, owner ≠ BufferOwner.fileWrite → ∀ (t : Fs) (inode : Inode) (inodeNo : Word),
      (∀ e ∈ (inodeSyncLogged inode).events t, e.Inside owner.ioBytes) ∧
      ∀ e ∈ (inodeDeleteLogged inodeNo).events t, e.Inside owner.ioBytes := by
  refine ⟨⟨?_, ?_⟩, fileWrite_ne_undefined layout held, ?_⟩
  · rintro inside ⟨s', run⟩
    exact (fileWrite_inside_iff layout held run).mp inside
  · intro single
    by_cases ends : ∃ s', fileWrite fdIdx src count s = .ok ((count.toNat : Int), s')
    · obtain ⟨s', run⟩ := ends
      exact (fileWrite_inside_iff layout held run).mpr (single ⟨s', run⟩)
    · -- Without the end of the data there is no call of `inode_sync`.
      refine last_bind (P := fun t : Traced Fs Access => ∀ e ∈ t.log, e.Inside 512)
        ((writeDataLogged_inside fdIdx src count).events s) ?_
      intro found t data
      cases found with
      | none => exact (last_of_ok data) ▸ (writeDataLogged_inside fdIdx src count).events s
      | some q =>
        obtain ⟨rfl, s₁, blocks, s₂, -, writes, -⟩ := writeDataLogged_returns layout held data
        exact absurd ⟨_, (fileWrite_eq_ok layout held).mpr ⟨s₁, blocks, s₂, _, writes⟩⟩ ends
  · intro owner other t inode inodeNo
    have large : 1024 ≤ owner.ioBytes := by cases owner <;> first | exact absurd rfl other | decide
    exact ⟨(updateRecordLogged_inside _ _ large).events t, (updateRecordLogged_inside _ _ large).events t⟩

def StoresInside (fdIdx : Nat) : List (List Byte) → Fs → Prop
  | [], _ => True
  | buf :: rest, s =>
    (∀ e ∈ (fileWriteLogged fdIdx (bufferOf buf) (BitVec.ofNat 32 buf.length)).events s,
      e.Inside BufferOwner.fileWrite.ioBytes) ∧
      ∀ r t, fileWrite fdIdx (bufferOf buf) (BitVec.ofNat 32 buf.length) s = .ok (r, t) → StoresInside fdIdx rest t

/-- The number of the inode does not change, so each write of the run is like the first one. -/
theorem storesInside_iff {has : Nat} {data : List Byte} {bufs : List (List Byte)} {s' : Fs}
    (holds : s.FileHolds fdIdx p has data)
    (small : ∀ buf ∈ bufs, buf.length < 2 ^ 32)
    (run : writeAll fdIdx bufs s = .ok (bufs.map fun buf => (buf.length : Int), s')) :
    StoresInside fdIdx bufs s ↔ bufs = [] ∨ ¬ Straddles (syncSlot (s.heap p)) := by
  induction bufs generalizing s data has with
  | nil => exact iff_of_true trivial (.inl rfl)
  | cons buf rest ih =>
    have bound := small buf List.mem_cons_self
    obtain ⟨s₁, will, returned, written, others⟩ := writeAll_cons_written holds bound run
    have number : syncSlot (s₁.heap p) = syncSlot (s.heap p) := by
      rw [written.inode]
      rfl
    have later := ih (holds.written bound written)
      (fun other member => small other (List.mem_cons_of_mem _ member)) others
    rw [number] at later
    have here := fileWrite_inside_iff holds.layout holds.held returned
    constructor
    · exact fun both => .inr (here.mp both.1)
    · intro either
      have single := either.resolve_left (List.cons_ne_nil _ _)
      refine ⟨here.mpr single, fun r t again => ?_⟩
      obtain ⟨-, rfl⟩ := Prod.mk.inj (Except.ok.inj (returned.symm.trans again))
      exact later.mpr (.inr single)

/-- The writes return their counts and store inside their buffers, and reading from the start returns
what was written. -/
def RoundTrips (s : Fs) (fdIdx : Nat) (bufs : List (List Byte)) (counts : List Word) : Prop :=
  ∃ s' s'', writeAll fdIdx bufs s = .ok (bufs.map fun buf => (buf.length : Int), s') ∧ StoresInside fdIdx bufs s ∧
    readAll fdIdx counts (s'.seekStart fdIdx) = .ok (readsOf bufs.flatten 0 counts, s'')

/-- A new file returns what is written to it when its record is in one sector, up to 71679 bytes, and
as long as no read that returns data ends at 71168 bytes or behind. -/
theorem roundTrips_iff {fdIdx p : Nat} {bufs : List (List Byte)} {counts : List Word} (new : s.NewFile fdIdx p)
    (limit : bufs.flatten.length ≤ 512 * 140) (positive : ∀ count ∈ counts, 0 < count.toNat)
    (room : blocksOf (bufs.flatten.length / 512 + 1) ≤ s.free.card) :
    RoundTrips s fdIdx bufs counts ↔ bufs.flatten.length < 512 * 140 ∧ ReadsFit bufs.flatten.length 0 counts ∧
      (bufs = [] ∨ ¬ Straddles (syncSlot (s.heap p))) := by
  have small (buf : List Byte) (member : buf ∈ bufs) : buf.length < 2 ^ 32 := by
    have := (List.sublist_flatten_of_mem member).length_le
    omega
  constructor
  · rintro ⟨s', s'', writes, inside, reads⟩
    have bound := writeAll_bound new.holds (by simp) small writes
    rw [List.length_nil, Nat.zero_add, Nat.mul_comm] at bound
    obtain ⟨t, run, fit⟩ := writeAll_then_reads new positive room bound
    obtain ⟨-, rfl⟩ := Prod.mk.inj (Except.ok.inj (run.symm.trans writes))
    exact ⟨bound, fit.mp ⟨s'', reads⟩, (storesInside_iff new.holds small writes).mp inside⟩
  · rintro ⟨fits, fit, single⟩
    obtain ⟨s', run, iff_⟩ := writeAll_then_reads new positive room fits
    obtain ⟨s'', reads⟩ := iff_.mpr fit
    exact ⟨s', s'', run, (storesInside_iff new.holds small run).mpr single, reads⟩

end

theorem roundTrips_three_bytes : RoundTrips newFileFs 3 [[1, 2], [3]] [2, 5, 1] :=
  (roundTrips_iff newFile_newFileFs (by simp) (by simp)
    (Nat.le_trans (by simp [blocksOf]) room_newFileFs)).mpr ⟨by simp, by simp [ReadsFit], .inr (by decide)⟩

def straddlingFs : Fs := newFileFs.setInode 0 { newFileFs.heap 0 with iNo := 6 }

theorem newFile_straddlingFs : straddlingFs.NewFile 3 0 where
  layout := newFile_newFileFs.layout
  root := newFile_newFileFs.root
  held := newFile_newFileFs.held
  size := rfl
  empty := newFile_newFileFs.empty

/-- A single buffer of the size that `file_write` admits is not written, and one byte to a file with the
number 6 is not written inside the buffer. -/
theorem roundTrips_fails : (newFileFs.NewFile 3 0 ∧ (List.replicate (512 * 140) (7 : Byte)).length = 512 * 140 ∧
      blocksOf (512 * 140 / 512 + 1) ≤ newFileFs.free.card ∧
        ¬ RoundTrips newFileFs 3 [List.replicate (512 * 140) 7] []) ∧
    straddlingFs.NewFile 3 0 ∧ blocksOf 1 ≤ straddlingFs.free.card ∧ ¬ RoundTrips straddlingFs 3 [[7]] [] := by
  refine ⟨⟨newFile_newFileFs, List.length_replicate, Nat.le_trans (by simp [blocksOf]) room_newFileFs, ?_⟩,
    newFile_straddlingFs, Nat.le_trans (by decide) room_newFileFs, ?_⟩
  · obtain ⟨n, length⟩ : ∃ n, n = 512 * 140 := ⟨_, rfl⟩
    rw [← length]
    rintro ⟨s', s'', writes, -⟩
    have bound := writeAll_bound newFile_newFileFs.holds (by simp) (by simp; omega) writes
    simp at bound
    omega
  · rintro ⟨s', s'', writes, inside, -⟩
    have single := (storesInside_iff newFile_straddlingFs.holds (by simp) writes).mp inside
    exact absurd single (by decide)

theorem fileWrite_one_byte {s : Fs} (new : s.NewFile 3 0) (room : 0 < s.free.card) :
    ∃ s', fileWrite 3 (bufferOf [7]) 1 s = .ok (1, s') := by
  obtain ⟨s', run, -⟩ := fileWrite_of_room (bufferOf [7]) 1 new.layout new.held new.ready new.root
    (by rw [new.size]; decide) (by grind [blocksOf, new.size])
  exact ⟨s', run⟩

theorem fileWrite_stores_single : ¬ Straddles (syncSlot (newFileFs.heap 0)) ∧
    (∃ s', fileWrite 3 (bufferOf [7]) 1 newFileFs = .ok (1, s')) ∧
    ∀ e ∈ (fileWriteLogged 3 (bufferOf [7]) 1).events newFileFs, e.Inside 512 := by
  have new := newFile_newFileFs
  have single : ¬ Straddles (syncSlot (newFileFs.heap 0)) := by decide
  have room := room_newFileFs
  exact ⟨single, fileWrite_one_byte new (by omega), (fileWrite_stores_iff new.layout new.held).1.mpr fun _ => single⟩

/-- One byte to a new file with the number 6: `inode_sync` reads 1024 bytes into the 512 bytes of `io_buf`. -/
theorem fileWrite_overruns : straddlingFs.NewFile 3 0 ∧
    (∃ s', fileWrite 3 (bufferOf [7]) 1 straddlingFs = .ok (1, s')) ∧
    ⟨.ioBuf, 0, 1024⟩ ∈ (fileWriteLogged 3 (bufferOf [7]) 1).events straddlingFs ∧
      ¬ Access.Inside 512 ⟨.ioBuf, 0, 1024⟩ := by
  have new := newFile_straddlingFs
  have room : 999 ≤ straddlingFs.free.card := room_newFileFs
  obtain ⟨s', run⟩ := fileWrite_one_byte new (by omega)
  obtain ⟨log, part, same, -⟩ := fileWriteLogged_events new.layout new.held run
  refine ⟨new, ⟨s', run⟩, ?_, by decide⟩
  rw [same]
  exact List.mem_append_right _ (List.mem_cons_self)

end LaiMiniOs
