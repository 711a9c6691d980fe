import LaiMiniOs.Foundation.Focus
import LaiMiniOs.Foundation.Interference
import LaiMiniOs.Fs.DirTermination
import LaiMiniOs.Fs.Syscalls

/-! Handles on directories: `dir_read` in `fs/dir.c`, and `sys_opendir` and `sys_readdir` in `fs/fs.c`.

A handle has a position and a buffer of its own. `dir_open` allocates one and starts it at the
first entry; for the path `/` the address of the static `root_dir` is given out as it is. A
position counts the entries that were returned, 24 bytes for each.
-/

set_option autoImplicit false

namespace LaiMiniOs
open Foundation Function

/-- The address of a `struct dir`: the static `root_dir`, or memory from `sys_malloc`. -/
inductive DirPtr where
  | root
  | alloc (address : Nat)
  deriving DecidableEq

structure OpenDir where
  inode : Nat
  dirPos : Word
  dirBuf : Memory

structure DirFs where
  fs : Fs
  dirs : DirPtr → OpenDir
  /-- The next address for a handle. -/
  next : Nat

abbrev DirM (A : Type) := Prog DirFs A

namespace DirFs

def fsPart : Lens DirFs Fs where
  get := fs
  put fs s := { s with fs := fs }
  get_put _ _ := rfl
  put_get _ := rfl
  put_put _ _ _ := rfl

def inode (s : DirFs) : DirPtr → Nat
  | .root => s.fs.rootDir
  | .alloc a => (s.dirs (.alloc a)).inode

def setDir (s : DirFs) (h : DirPtr) (dir : OpenDir) : DirFs := { s with dirs := update s.dirs h dir }

/-- `sys_opendir` with the handle that it returns; `none` for `NULL`. The handle is allocated in `dir_open`. -/
def sysOpendir (stack : Stack) (name : List Byte) : DirM (Option DirPtr) := do
  match ← Prog.zoom fsPart (LaiMiniOs.sysOpendir stack name) with
  | none => return none
  | some .root => return some .root
  | some (.opened p) =>
    let s ← get
    set { s.setDir (.alloc s.next) { s.dirs (.alloc s.next) with inode := p, dirPos := 0 } with next := s.next + 1 }
    return some (.alloc s.next)

/-- The entries `per - left, …` of a sector: the first one in use that was not returned before, with its offset,
and otherwise the offset of the next one. -/
def scanEntries (buf : Memory) (per : Nat) (dirEntrySize dirPos : Word) : Nat → Word → Word ⊕ Nat × Word
  | 0, curDirEntryPos => .inl curDirEntryPos
  | left + 1, curDirEntryPos =>
    let dirEntryIdx := per - (left + 1)
    if (DirEntry.read buf (24 * dirEntryIdx)).fType ≠ 0 then
      if curDirEntryPos.toNat < dirPos.toNat then scanEntries buf per dirEntrySize dirPos left
        (curDirEntryPos + dirEntrySize)
      else .inr (dirEntryIdx, curDirEntryPos)
    else scanEntries buf per dirEntrySize dirPos left curDirEntryPos

/-- The loop of `dir_read` over the blocks `blockCnt - left, …`. The handle is looked at again after each wait. -/
def readBlocks (h : DirPtr) (p : Nat) (blocks : Nat → Word) (blockCnt : Nat) (dirEntrySize : Word) :
    Nat → Word → DirM (Option DirEntry)
  | 0, _ => return none
  | left + 1, curDirEntryPos => do
    let s ← get
    if (s.fs.heap p).iSize.toNat ≤ (s.dirs h).dirPos.toNat then return none
    else if blocks (blockCnt - (left + 1)) = 0 then readBlocks h p blocks blockCnt dirEntrySize left curDirEntryPos
    else do
      let buf ← Prog.zoom fsPart (ideRead (blocks (blockCnt - (left + 1))) 1)
      modify fun s => s.setDir h { s.dirs h with dirBuf := buf }
      let dirPos := ((← get).dirs h).dirPos
      match scanEntries buf (512 / dirEntrySize.toNat) dirEntrySize dirPos
        (512 / dirEntrySize.toNat) curDirEntryPos with
      | .inl curDirEntryPos => readBlocks h p blocks blockCnt dirEntrySize left curDirEntryPos
      | .inr (dirEntryIdx, curDirEntryPos) =>
        Prog.assert (curDirEntryPos = dirPos)
        modify fun s => s.setDir h { s.dirs h with dirPos := dirPos + dirEntrySize }
        return some (DirEntry.read buf (24 * dirEntryIdx))

/-- `dir_read`; `none` for `NULL`. -/
def dirRead (h : DirPtr) : DirM (Option DirEntry) := do
  let s ← get
  let p := s.inode h
  let dirInode := s.fs.heap p
  let table ← Prog.zoom fsPart (readTable dirInode)
  let blockCnt := if dirInode.sector 12 ≠ 0 then 140 else 12
  readBlocks h p (allBlocks dirInode table) blockCnt (← get).fs.part.sb.dirEntrySize blockCnt 0

def sysReaddir : Option DirPtr → DirM (Option DirEntry)
  | none => Prog.fail .assertion
  | some h => dirRead h

end DirFs

/-- The entries in use in a block of a directory, and in all of its blocks, in the order of the disk. -/
def Fs.blockListing (s : Fs) (p k : Nat) : List DirEntry := ((List.range 21).map (s.dirSlot p k)).filter fun e =>
  e.fType ≠ 0

def Fs.listing (s : Fs) (p : Nat) : List DirEntry := (List.range 140).flatMap (s.blockListing p)

/-- A directory whose blocks can be read, and whose size counts its entries. -/
structure Fs.Listable (s : Fs) (p : Nat) (live : List DirEntry) : Prop where
  entrySize : s.part.sb.dirEntrySize = 24
  table : (s.heap p).sector 12 ≠ 0 → ((s.heap p).sector 12).toNat ≤ maxLba
  onDisk : ∀ k, k < 140 → s.dirPointer p k ≠ 0 → (s.dirPointer p k).toNat ≤ maxLba
  listing : s.listing p = live
  size : (s.heap p).iSize.toNat = 24 * live.length

/-- What a reader of the directory `p` with the handle `h` needs of the others. -/
structure DirFs.Spares (h : DirPtr) (p : Nat) (s t : DirFs) : Prop where
  dir : t.dirs h = s.dirs h
  inode : t.inode h = s.inode h
  disk : t.fs.disk = s.fs.disk
  part : t.fs.part = s.fs.part
  sectors : (t.fs.heap p).iSectors = (s.fs.heap p).iSectors
  size : (t.fs.heap p).iSize = (s.fs.heap p).iSize

structure DirFs.Uses (h : DirPtr) (s t : DirFs) : Prop where
  fs : t.fs = s.fs
  next : t.next = s.next
  others : ∀ h', h' ≠ h → t.dirs h' = s.dirs h'
  inode : (t.dirs h).inode = (s.dirs h).inode

namespace DirFs

variable {s t u : DirFs} {h : DirPtr} {p : Nat} {live : List DirEntry}

theorem Spares.refl (h : DirPtr) (p : Nat) (s : DirFs) : Spares h p s s := ⟨rfl, rfl, rfl, rfl, rfl, rfl⟩

theorem Spares.trans (first : Spares h p s t) (second : Spares h p t u) : Spares h p s u :=
  ⟨second.dir.trans first.dir, second.inode.trans first.inode, second.disk.trans first.disk,
    second.part.trans first.part,
    second.sectors.trans first.sectors, second.size.trans first.size⟩

theorem dirPointer_congr {s t : Fs} (disk : t.disk = s.disk) (sectors : (t.heap p).iSectors = (s.heap p).iSectors)
    (k : Nat) :
    t.dirPointer p k = s.dirPointer p k := by
  unfold Fs.dirPointer allBlocks Inode.sector
  rw [disk, sectors]

theorem blockListing_congr {s t : Fs} (disk : t.disk = s.disk) (sectors : (t.heap p).iSectors = (s.heap p).iSectors) :
    t.blockListing p = s.blockListing p := by
  have slot (k j : Nat) : t.dirSlot p k j = s.dirSlot p k j := by
    unfold Fs.dirSlot
    rw [dirPointer_congr disk sectors, disk]
  funext k
  rw [Fs.blockListing, Fs.blockListing, show t.dirSlot p k = s.dirSlot p k from funext (slot k)]

theorem listable_congr {s t : Fs} (listable : s.Listable p live) (disk : t.disk = s.disk) (part : t.part = s.part)
    (sectors : (t.heap p).iSectors = (s.heap p).iSectors) (size : (t.heap p).iSize = (s.heap p).iSize) :
    t.Listable p live where
  entrySize := by rw [part, listable.entrySize]
  table := by
    have sector : (t.heap p).sector 12 = (s.heap p).sector 12 := by rw [Inode.sector, Inode.sector, sectors]
    rw [sector]
    exact listable.table
  onDisk := by
    intro k inside
    rw [dirPointer_congr disk sectors]
    exact listable.onDisk k inside
  listing := by rw [Fs.listing, blockListing_congr disk sectors, ← Fs.listing, listable.listing]
  size := by rw [size, listable.size]

theorem Spares.listable (spares : Spares h p s t) (listable : s.fs.Listable p live) : t.fs.Listable p live :=
  listable_congr listable spares.disk spares.part spares.sectors spares.size

theorem dirs_setDir (s : DirFs) (h : DirPtr) (dir : OpenDir) : (s.setDir h dir).dirs h = dir := update_self _ _ _

theorem Uses.refl (h : DirPtr) (s : DirFs) : Uses h s s := ⟨rfl, rfl, fun _ _ => rfl, rfl⟩

theorem Uses.trans (first : Uses h s t) (second : Uses h t u) : Uses h s u :=
  ⟨second.fs.trans first.fs, second.next.trans first.next, fun h' other =>
    (second.others h' other).trans (first.others h' other),
    second.inode.trans first.inode⟩

theorem Uses.of_steps (steps : Relation.ReflTransGen (Uses h) s t) : Uses h s t := by
  induction steps with
  | refl => exact .refl h s
  | tail _ last ih => exact ih.trans last

theorem Uses.setDir (s : DirFs) (h : DirPtr) {dir : OpenDir} (same : dir.inode = (s.dirs h).inode) :
    Uses h s (s.setDir h dir) := by
  refine ⟨rfl, rfl, fun h' other => update_of_ne other _ _, ?_⟩
  rw [dirs_setDir, same]

theorem inode_congr (root : t.fs.rootDir = s.fs.rootDir) (same : (t.dirs h).inode = (s.dirs h).inode) :
    t.inode h = s.inode h := by
  cases h with
  | root => exact root
  | alloc a => exact same

theorem Uses.spares (uses : Uses h s t) {h' : DirPtr} (other : h' ≠ h) (p : Nat) : Spares h' p s t :=
  ⟨uses.others h' other, inode_congr (by rw [uses.fs]) (by rw [uses.others h' other]),
    by rw [uses.fs], by rw [uses.fs], by rw [uses.fs], by rw [uses.fs]⟩

/-! One call of `dir_read`. -/

section
variable {rely guar : DirFs → DirFs → Prop} {A : Type} {post : A → DirFs → Prop}

theorem ideRead_attains {lba : Word} {secCnt : Nat} {f : Memory → DirM A} (addressable : Addressable lba.toNat secCnt)
    (rest : ∀ t, rely s t → Prog.Attains rely guar post (f (sectors t.fs.disk lba.toNat secCnt)) t) :
    Prog.Attains rely guar post (Prog.zoom fsPart (ideRead lba secCnt) >>= f) s := by
  have passed : ideRead lba secCnt = (do Prog.pause; return sectors (← get).disk lba.toNat secCnt) := by
    rw [ideRead, Prog.assert, Prog.require, if_pos addressable]
    rfl
  rw [passed]
  exact rest

theorem readTable_attains {f : Memory → DirM A} (listable : s.fs.Listable p live)
    (waits : ∀ t, rely s t → Spares h p s t) (refl : rely s s)
    (rest : ∀ t, rely s t → Prog.Attains rely guar post (f (if (s.fs.heap p).sector 12 ≠ 0 then
      sectors s.fs.disk ((s.fs.heap p).sector 12).toNat 1 else Memory.zero)) t) :
    Prog.Attains rely guar post (Prog.zoom fsPart (readTable (s.fs.heap p)) >>= f) s := by
  unfold readTable
  by_cases some : (s.fs.heap p).sector 12 ≠ 0
  · rw [if_pos some] at rest ⊢
    refine ideRead_attains (addressable_one.mpr (listable.table some)) fun t step => ?_
    rw [(waits t step).disk]
    exact rest t step
  · rw [if_neg some] at rest ⊢
    exact rest s refl

end

theorem scanEntries_eq {buf : Memory} {dirPos cur : Word} {k seen left : Nat} (pos : dirPos.toNat = 24 * k)
    (here : cur.toNat = 24 * seen)
    (below : seen ≤ k) (small : left ≤ 21) :
    let entries := ((List.range' (21 - left) left).map fun j => DirEntry.read buf (24 * j)).filter fun e => e.fType ≠ 0
    if k - seen < entries.length then
      ∃ j, scanEntries buf 21 24 dirPos left cur = .inr (j, dirPos) ∧
        entries[k - seen]? = some (DirEntry.read buf (24 * j))
    else ∃ cur', scanEntries buf 21 24 dirPos left cur = .inl cur' ∧ cur'.toNat = 24 * (seen + entries.length) ∧
      seen + entries.length ≤ k := by
  induction left generalizing cur seen with
  | zero => exact ⟨cur, rfl, here, below⟩
  | succ left ih =>
    have first : 21 - (left + 1) + 1 = 21 - left := by omega
    intro entries
    have split : entries = if (DirEntry.read buf (24 * (21 - (left + 1)))).fType ≠ 0
        then DirEntry.read buf (24 * (21 - (left + 1))) :: ((List.range' (21 - left) left).map fun j =>
          DirEntry.read buf (24 * j)).filter fun e => e.fType ≠ 0
        else ((List.range' (21 - left) left).map fun j => DirEntry.read buf (24 * j)).filter fun e => e.fType ≠ 0 :=
          by grind [List.range'_succ]
    rw [split]
    unfold scanEntries
    dsimp only
    by_cases used : (DirEntry.read buf (24 * (21 - (left + 1)))).fType ≠ 0
    · rw [if_pos used, if_pos used]
      by_cases earlier : cur.toNat < dirPos.toNat
      · -- An entry that was returned before.
        rw [if_pos earlier]
        have moved : (cur + 24).toNat = 24 * (seen + 1) := by grind [dirPos.isLt]
        have rest := ih moved (by omega) (by omega)
        dsimp only at rest
        generalize ((List.range' (21 - left) left).map fun j => DirEntry.read buf (24 * j)).filter
          (fun e => e.fType ≠ 0) = tail at rest ⊢
        have index : k - seen = k - (seen + 1) + 1 := by omega
        rw [List.length_cons]
        split at rest
        · next found =>
          rw [if_pos (by omega), index, List.getElem?_cons_succ]
          exact rest
        · next missing =>
          rw [if_neg (by omega)]
          obtain ⟨cur', run, place, le⟩ := rest
          exact ⟨cur', run, by omega, by omega⟩
      grind [BitVec.eq_of_toNat_eq]
    · rw [if_neg used, if_neg used]
      exact ih here below (by omega)

theorem blockListing_of_none {s : Fs} {b : Nat} (none : s.dirPointer p b = 0) : s.blockListing p b = [] := by
  have empty (j : Nat) : s.dirSlot p b j = .empty := by rw [Fs.dirSlot, if_pos none]
  unfold Fs.blockListing
  rw [List.filter_eq_nil_iff]
  intro e member
  obtain ⟨j, -, rfl⟩ := List.mem_map.mp member
  rw [empty]
  decide

theorem blockListing_of_some {s : Fs} {b : Nat} (some : s.dirPointer p b ≠ 0) :
    s.blockListing p b = ((List.range' (21 - 21) 21).map fun j =>
      DirEntry.read (sectors s.disk (s.dirPointer p b).toNat 1) (24 * j)).filter
      fun e => e.fType ≠ 0 := by
  have slot : s.dirSlot p b = fun j => DirEntry.read (sectors s.disk (s.dirPointer p b).toNat 1) (24 * j) := by
    funext j
    rw [Fs.dirSlot, if_neg some]
  rw [Fs.blockListing, slot, List.range_eq_range']

theorem readBlocks_attains {blocks : Nat → Word} {blockCnt left k seen : Nat} {cur : Word}
    (listable : s.fs.Listable p live)
    (given : ∀ b, b < blockCnt → blocks b = s.fs.dirPointer p b) (inside : left ≤ blockCnt) (limit : blockCnt ≤ 140)
    (pos : (s.dirs h).dirPos.toNat = 24 * k) (here : cur.toNat = 24 * seen) (below : seen ≤ k) (more : k < live.length)
    (found : k - seen < ((List.range' (blockCnt - left) left).flatMap (s.fs.blockListing p)).length) :
    Prog.Attains (Spares h p) (Uses h)
      (fun r t => r = ((List.range' (blockCnt - left) left).flatMap (s.fs.blockListing p))[k - seen]? ∧
      (t.dirs h).dirPos.toNat = 24 * (k + 1))
      (readBlocks h p blocks blockCnt 24 left cur) s := by
  induction left generalizing s cur seen with
  | zero => exact absurd found (Nat.not_lt_zero _)
  | succ left ih =>
    have first : blockCnt - (left + 1) + 1 = blockCnt - left := by omega
    have size := listable.size
    rw [List.range'_succ, first, List.flatMap_cons] at found ⊢
    unfold readBlocks
    refine .get_bind ?_
    rw [if_neg (by omega)]
    by_cases none : blocks (blockCnt - (left + 1)) = 0
    · grind [blockListing_of_none]
    · rw [if_neg none]
      have pointer := given (blockCnt - (left + 1)) (by omega)
      have some : s.fs.dirPointer p (blockCnt - (left + 1)) ≠ 0 := by rwa [← pointer]
      refine ideRead_attains (addressable_one.mpr (by rw [pointer]; exact listable.onDisk _ (by omega) some)) fun t
        step => ?_
      -- The state after the sector is in the buffer.
      let u := t.setDir h { t.dirs h with dirBuf := sectors t.fs.disk (blocks (blockCnt - (left + 1))).toNat 1 }
      have same : (u.dirs h).dirPos = (s.dirs h).dirPos := by
        rw [dirs_setDir, ← step.dir]
      have listable' : u.fs.Listable p live := step.listable listable
      refine .modify_bind (Uses.setDir t h rfl) (.get_bind ?_)
      have scan := @scanEntries_eq (sectors t.fs.disk (blocks (blockCnt - (left + 1))).toNat 1) _ _ _ _ 21 pos here
        below (Nat.le_refl _)
      dsimp only at scan
      rw [step.disk, pointer, ← blockListing_of_some some] at scan
      change Prog.Attains _ _ _ (match scanEntries (sectors t.fs.disk (blocks (blockCnt - (left + 1))).toNat 1) 21 24
        (u.dirs h).dirPos 21 cur with
        | .inl curDirEntryPos => _
        | .inr (dirEntryIdx, curDirEntryPos) => _) u
      rw [same, step.disk, pointer]
      split at scan
      · next here =>
        obtain ⟨j, run, entry⟩ := scan
        rw [run]
        refine .require_bind rfl (.modify_bind (Uses.setDir u h rfl) ⟨?_, ?_⟩)
        · rw [List.getElem?_append_left here, entry]
        · have bound := (s.fs.heap p).iSize.isLt
          grind [dirs_setDir]
      · next later =>
        obtain ⟨cur', run, here', below'⟩ := scan
        rw [run]
        rw [List.length_append] at found
        have listings : u.fs.blockListing p = s.fs.blockListing p := blockListing_congr step.disk step.sectors
        have pointers (b : Nat) (inside : b < blockCnt) : blocks b = u.fs.dirPointer p b :=
          (given b inside).trans (dirPointer_congr step.disk step.sectors b).symm
        have rest := ih listable' pointers (by omega) (by rw [same]; exact pos) here' below' (by rw [listings]; omega)
        rw [listings] at rest
        rw [List.getElem?_append_right (by omega), Nat.sub_sub]
        exact rest

theorem dirRead_attains {k : Nat} (listable : s.fs.Listable p live) (inode : s.inode h = p)
    (pos : (s.dirs h).dirPos.toNat = 24 * k) :
    Prog.Attains (Spares h p) (Uses h)
      (fun r t => r = live[k]? ∧ (t.dirs h).dirPos.toNat = 24 * if k < live.length then k + 1 else k)
      (dirRead h) s := by
  unfold dirRead
  refine .get_bind ?_
  rw [inode]
  refine readTable_attains listable (fun _ step => step) (Spares.refl h p s) fun t step => .get_bind ?_
  have listable' := step.listable listable
  rw [listable'.entrySize]
  have given (b : Nat) : allBlocks (s.fs.heap p) (if (s.fs.heap p).sector 12 ≠ 0 then
      sectors s.fs.disk ((s.fs.heap p).sector 12).toNat 1 else Memory.zero) b = t.fs.dirPointer p b :=
    (dirPointer_congr step.disk step.sectors b).symm
  have zero : (0 : Word).toNat = 24 * 0 := rfl
  -- Without a table the blocks from 12 on are missing.
  have whole : (List.range (if (s.fs.heap p).sector 12 ≠ 0 then 140 else 12)).flatMap (t.fs.blockListing p) = live := by
    rw [← listable'.listing, Fs.listing]
    split
    · rfl
    · next none =>
      have split : List.range 140 = List.range 12 ++ (List.range 128).map (12 + ·) := by decide
      grind [List.flatMap_eq_nil_iff, blockListing_of_none, allBlocks, Memory.word_zero]
  generalize count : (if (s.fs.heap p).sector 12 ≠ 0 then 140 else 12) = blockCnt at whole ⊢
  have limit : 0 < blockCnt ∧ blockCnt ≤ 140 := by
    rw [← count]
    split <;> omega
  have place : (t.dirs h).dirPos.toNat = 24 * k := by rw [step.dir, pos]
  by_cases more : k < live.length
  · have all : (List.range' (blockCnt - blockCnt) blockCnt).flatMap (t.fs.blockListing p) = live := by
      rw [Nat.sub_self, ← List.range_eq_range', whole]
    have loop := readBlocks_attains (h := h) listable' (fun b _ => given b) (Nat.le_refl _) limit.2 place zero
      (Nat.zero_le k) more
      (by rw [all]; exact more)
    rw [all, Nat.sub_zero] at loop
    rw [if_pos more]
    exact loop
  · obtain ⟨left, rfl⟩ := Nat.exists_eq_succ_of_ne_zero (Nat.ne_of_gt limit.1)
    have size := listable'.size
    unfold readBlocks
    refine .get_bind ?_
    rw [if_neg more, if_pos (by omega)]
    exact ⟨(List.getElem?_eq_none (by omega)).symm, place⟩

end DirFs

end LaiMiniOs
