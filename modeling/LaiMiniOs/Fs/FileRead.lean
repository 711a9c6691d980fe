import LaiMiniOs.Fs.Room

/-! What `file_read` returns.

Reading changes nothing but the position of the file. The asserted limits of `file_read` are
lower than those of `file_write`, so a run that returns is one whose end is below them.
-/

set_option autoImplicit false

namespace LaiMiniOs
open Foundation Prog

variable {fdIdx pos has size from_ total p : Nat} {blocks : Nat → Word} {inode : Inode} {r : Option (List Byte) × Fs}
  {count : Word}

def Fs.seekBy (s : Fs) (fdIdx n : Nat) : Fs :=
  s.setFile fdIdx { s.fileTable fdIdx with fdPos := (s.fileTable fdIdx).fdPos + BitVec.ofNat 32 n }

section
variable {s : Fs}

theorem seekBy_zero (s : Fs) (fdIdx : Nat) : s.seekBy fdIdx 0 = s := by
  simp [Fs.seekBy, Fs.setFile]

theorem seekBy_seekBy (s : Fs) (fdIdx m n : Nat) : (s.seekBy fdIdx m).seekBy fdIdx n = s.seekBy fdIdx (m + n) := by
  simp [Fs.seekBy, Fs.setFile, BitVec.ofNat_add, BitVec.add_assoc]

theorem fdPos_seekBy (s : Fs) (fdIdx n : Nat) :
    ((s.seekBy fdIdx n).fileTable fdIdx).fdPos = (s.fileTable fdIdx).fdPos + BitVec.ofNat 32 n := by
  simp [Fs.seekBy, Fs.setFile]

theorem fdInode_seekBy (s : Fs) (fdIdx n : Nat) :
    ((s.seekBy fdIdx n).fileTable fdIdx).fdInode = (s.fileTable fdIdx).fdInode := by
  simp [Fs.seekBy, Fs.setFile]

def bytesAt (disk : Memory) (blocks : Nat → Word) (pos n : Nat) : List Byte :=
  (List.range n).map fun i => sectors disk (blocks ((pos + i) / 512)).toNat 1 ((pos + i) % 512)

theorem bytesAt_add (disk : Memory) (blocks : Nat → Word) (pos m n : Nat) :
    bytesAt disk blocks pos (m + n) = bytesAt disk blocks pos m ++ bytesAt disk blocks (pos + m) n := by
  simp [bytesAt, List.range_add, Function.comp_def, Nat.add_assoc]

theorem readLoop_done (done : size ≤ from_) :
    readLoop fdIdx blocks size from_ s = .ok ([], s) := by
  unfold readLoop
  rw [if_neg (by omega), run_pure]

theorem readLoop_step (more : from_ < size)
    (place : (s.fileTable fdIdx).fdPos.toNat = pos) {r : List Byte × Fs} :
    readLoop fdIdx blocks size from_ s = .ok r ↔ pos / 512 < 140 ∧ (blocks (pos / 512)).toNat ≤ maxLba ∧
      ∃ rest s', readLoop fdIdx blocks size (from_ + chunkSize pos (size - from_))
          (s.seekBy fdIdx (chunkSize pos (size - from_))) = .ok (rest, s') ∧
        r = (bytesAt s.disk blocks pos (chunkSize pos (size - from_)) ++ rest, s') := by
  have ends := chunkSize_ends (z := pos) (n := size - from_) (by omega)
  -- A round stays inside its sector.
  have bytes : (List.range (chunkSize pos (size - from_))).map
      (fun i => sectors s.disk (blocks (pos / 512)).toNat 1 (pos % 512 + i)) =
      bytesAt s.disk blocks pos (chunkSize pos (size - from_)) := by
    refine List.map_congr_left fun i member => ?_
    have below := List.mem_range.mp member
    have sector : (pos + i) / 512 = pos / 512 := by omega
    have offset : (pos + i) % 512 = pos % 512 + i := by omega
    rw [sector, offset]
  conv_lhs => unfold readLoop
  rw [if_pos more, get_bind]
  simp only [place]
  constructor
  · intro run
    obtain ⟨inside, run⟩ := require_bind_eq_ok.mp run
    obtain ⟨_, _, read, run⟩ := bind_eq_ok.mp run
    obtain ⟨onDisk, here⟩ := ideRead_eq_ok.mp read
    cases here
    rw [modify_bind] at run
    obtain ⟨rest, s', loop, run⟩ := bind_eq_ok.mp run
    refine ⟨inside, addressable_one.mp onDisk, rest, s', loop, ?_⟩
    rw [← bytes]
    exact (Except.ok.inj run).symm
  · rintro ⟨inside, onDisk, rest, s', loop, rfl⟩
    rw [require_bind inside,
      bind_of_ok (ideRead_eq (addressable_one.mpr onDisk)), modify_bind]
    refine (bind_of_ok loop).trans ?_
    rw [← bytes]
    rfl

theorem fdPos_chunk {left : Nat} (place : (s.fileTable fdIdx).fdPos.toNat = pos) (inside : pos / 512 < 140) :
    ((s.seekBy fdIdx (chunkSize pos left)).fileTable fdIdx).fdPos.toNat = pos + chunkSize pos left := by
  rw [fdPos_seekBy, BitVec.toNat_add, BitVec.toNat_ofNat, place]
  unfold chunkSize
  omega

theorem readLoop_bound {r : List Byte × Fs}
    (place : (s.fileTable fdIdx).fdPos.toNat = pos) (run : readLoop fdIdx blocks size from_ s = .ok r) :
    from_ < size → pos + (size - from_) ≤ 140 * 512 := by
  generalize left : size - from_ = n
  induction n using Nat.strongRecOn generalizing s from_ pos r with
  | ind n ih =>
    intro more
    obtain ⟨inside, -, rest, s', loop, -⟩ := (readLoop_step more place).mp run
    rw [left] at loop
    have ends := chunkSize_ends (z := pos) (n := n) (by omega)
    have later := ih (n - chunkSize pos n) (by omega) (fdPos_chunk place inside) loop (by omega)
    omega

theorem readLoop_eq {n : Nat} (left : size - from_ = n)
    (place : (s.fileTable fdIdx).fdPos.toNat = pos) (fits : pos + n ≤ 140 * 512)
    (onDisk : ∀ x, pos ≤ x → x < pos + n → (blocks (x / 512)).toNat ≤ maxLba) :
    readLoop fdIdx blocks size from_ s = .ok (bytesAt s.disk blocks pos n, s.seekBy fdIdx n) := by
  induction n using Nat.strongRecOn generalizing s from_ pos with
  | ind n ih =>
    by_cases more : from_ < size
    · have ends := chunkSize_ends (z := pos) (n := n) (by omega)
      have inside : pos / 512 < 140 := by omega
      refine (readLoop_step more place).mpr ⟨inside, onDisk pos (Nat.le_refl _) (by omega), ?_⟩
      rw [left]
      have loop := ih (n - chunkSize pos n) (by omega) (s := s.seekBy fdIdx (chunkSize pos n))
        (by omega : size - (from_ + chunkSize pos n) = n - chunkSize pos n) (fdPos_chunk place inside)
        (by omega) (fun x low high => onDisk x (by omega) (by omega))
      refine ⟨_, _, loop, ?_⟩
      have split : chunkSize pos n + (n - chunkSize pos n) = n := by omega
      have disk : (s.seekBy fdIdx (chunkSize pos n)).disk = s.disk := rfl
      rw [seekBy_seekBy, disk, ← bytesAt_add, split]
    · have none : n = 0 := by omega
      subst none
      rw [readLoop_done (by omega), seekBy_zero]
      rfl

/-- A file with a block for every sector up to its end, all in the data area and on the disk. -/
structure Fs.FileReadable (s : Fs) (inode : Inode) (has : Nat) : Prop where
  shape : s.FileShape inode has
  inArea : ∀ k, k ≤ 140 → s.volume.pointer inode k ≠ 0 →
    s.part.sb.dataStartLba.toNat ≤ (s.volume.pointer inode k).toNat
  onDisk : ∀ k, k ≤ 140 → (s.volume.pointer inode k).toNat ≤ maxLba

theorem Fs.FileReady.readable (ready : s.FileReady inode has) :
    s.FileReadable inode has where
  shape := ready.shape
  inArea k low some := by
    obtain ⟨i, ⟨-, sum⟩, -⟩ := ready.owns.used k low some
    omega
  onDisk := ready.onDisk

theorem Fs.FileReadable.below_of_le {x : Nat} (ready : s.FileReadable inode has)
    (length : inode.iSize.toNat = total) (inside : x ≤ total) : 0 < x → x / 512 < has := by
  intro positive
  rcases ready.shape.size with ⟨-, zero⟩ | size
  · have none : (0 : Word).toNat = 0 := rfl
    rw [zero] at length
    omega
  · rw [size, length]
    omega

/-- The blocks that a read collects. A direct block is collected also where the file has none. -/
theorem collectForRead_eq {last : Nat} (ready : s.FileReadable inode has) (start : Nat)
    (below : 12 ≤ last → last < has) (small : last < 140) :
    ∃ blocks, collectForRead inode start last s = .ok (blocks, s) ∧
      (∀ k, start ≤ k → k ≤ last → blocks k = s.volume.pointer inode k) ∧ ∀ k, k < 140 → (blocks k).toNat ≤ maxLba := by
  have nothing : (0 : Word).toNat ≤ maxLba := Nat.zero_le _
  have sector (k : Nat) (near : k < 12) : (inode.sector k).toNat ≤ maxLba := by
    rw [← Volume.pointer_direct s.volume _ near]
    exact ready.onDisk k (by omega)
  unfold collectForRead
  by_cases direct : last < 12
  · rw [if_pos direct]
    refine ⟨_, rfl, fun k low high => ?_, fun k _ => ?_⟩
    · rw [if_pos ⟨low, high⟩, Volume.pointer_direct _ _ (by omega)]
    · split
      next here => exact sector k (by omega)
      next => exact nothing
  · have table : inode.sector 12 ≠ 0 := fun none =>
      (ready.shape.blocks last small).mpr (below (by omega)) (Volume.pointer_of_no_table none (by omega))
    have check : Prog.when (start ≠ last) (Prog.assert (inode.sector 12 ≠ 0)) s = .ok ((), s) := by
      grind [run_when_of_not, run_when_of, run_require_of]
    have low := ready.inArea 140 (Nat.le_refl _) table
    have onDisk := ready.onDisk 140 (Nat.le_refl _)
    rw [Volume.pointer_table] at low onDisk
    rw [if_neg direct, bind_of_ok check, bind_of_ok (ideRead_eq (addressable_one.mpr onDisk))]
    have entry (k : Nat) (far : ¬ k < 12) (inside : k < 140) :
        (sectors s.disk (inode.sector 12).toNat 1).word (4 * (k - 12)) = s.volume.pointer inode k := by
      have word := tableBlocks_eq table low (by omega : 12 ≤ k) inside
      rwa [tableBlocks, if_neg far] at word
    refine ⟨_, rfl, fun k first high => ?_, fun k inside => ?_⟩
    · grind [Volume.pointer_direct]
    · by_cases near : k < 12
      · rw [if_pos near]
        split
        · exact sector k near
        · exact nothing
      · rw [if_neg near, entry k near inside]
        exact ready.onDisk k (by omega)

theorem collectForRead_state {start last : Nat} {s' : Fs}
    (run : collectForRead inode start last s = .ok (blocks, s')) : s' = s := by
  unfold collectForRead at run
  by_cases direct : last < 12
  · rw [if_pos direct] at run
    cases run
    rfl
  · rw [if_neg direct] at run
    obtain ⟨_, t, check, rest⟩ := bind_eq_ok.mp run
    have same : t = s := by grind [run_when_of_not, run_when_of, require_eq_ok]
    subst same
    obtain ⟨_, _, read, last⟩ := bind_eq_ok.mp rest
    cases (ideRead_eq_ok.mp read).2
    cases last
    rfl

def Fs.dataAt (s : Fs) (inode : Inode) (pos n : Nat) : List Byte :=
  (List.range n).map fun i => s.volume.byte inode (pos + i)

theorem readFrom_eq_ok {n : Nat} {size : Word} (ready : s.FileReadable (s.heap p) has)
    (place : (s.fileTable fdIdx).fdPos.toNat = pos) (length : size.toNat = n)
    (below : 0 < pos + n → (pos + n) / 512 < has) (fits : pos + n < 140 * 512) :
    readFrom fdIdx (s.heap p) (s.fileTable fdIdx).fdPos size s = .ok r ↔
      pos + n < 139 * 512 ∧ r = (some (s.dataAt (s.heap p) pos n), s.seekBy fdIdx n) := by
  have last : ((s.fileTable fdIdx).fdPos + size).toNat = pos + n := by
    rw [BitVec.toNat_add, place, length]
    omega
  obtain ⟨blocks, collect, given, -⟩ := collectForRead_eq ready (pos / 512) (fun high => below (by omega)) (by omega)
  have read : readLoop fdIdx blocks n 0 s = .ok (bytesAt s.disk blocks pos n, s.seekBy fdIdx n) :=
    readLoop_eq (Nat.sub_zero n) place (by omega) (fun x low high => by
      rw [given _ (by omega) (by omega)]
      exact ready.onDisk _ (by omega))
  have data : bytesAt s.disk blocks pos n = s.dataAt (s.heap p) pos n := by
    refine List.map_congr_left fun i member => ?_
    have inside := List.mem_range.mp member
    have last := below (by omega)
    have some := (ready.shape.blocks ((pos + i) / 512) (by omega)).mpr (by omega)
    have low := ready.inArea _ (by omega) some
    rw [given _ (by omega) (by omega), Volume.byte]
    exact (congrFun (if_pos low) _).symm
  rw [data] at read
  unfold readFrom
  simp only [place, last, length]
  constructor
  · intro run
    obtain ⟨limit, run⟩ := require_bind_eq_ok.mp run
    rw [bind_of_ok collect, bind_of_ok read] at run
    exact ⟨by omega, (Except.ok.inj run).symm⟩
  · rintro ⟨limit, rfl⟩
    rw [require_bind (by omega), bind_of_ok collect, bind_of_ok read]
    rfl

theorem readFrom_bound {size : Word}
    (place : (s.fileTable fdIdx).fdPos.toNat = pos) (positive : 0 < size.toNat)
    (run : readFrom fdIdx inode (s.fileTable fdIdx).fdPos size s = .ok r) : pos + size.toNat ≤ 140 * 512 := by
  obtain ⟨-, rest⟩ := require_bind_eq_ok.mp run
  obtain ⟨blocks, t, collect, last⟩ := bind_eq_ok.mp rest
  obtain rfl := collectForRead_state collect
  obtain ⟨_, _, read, -⟩ := bind_eq_ok.mp last
  exact readLoop_bound place read positive

section
variable (held : (s.fileTable fdIdx).fdInode = some p)
  (length : (s.heap p).iSize.toNat = total) (place : (s.fileTable fdIdx).fdPos.toNat = pos) (inside : pos ≤ total)
include held length place inside

theorem fileRead_cut (wraps : pos + count.toNat < 2 ^ 32) :
    ∃ size : Word, size.toNat = min count.toNat (total - pos) ∧
      fileRead fdIdx count s = if 0 < count.toNat ∧ pos = total then .ok (none, s)
        else readFrom fdIdx (s.heap p) (s.fileTable fdIdx).fdPos size s := by
  have sum : ((s.fileTable fdIdx).fdPos + count).toNat = pos + count.toNat := by
    rw [BitVec.toNat_add, place, Nat.mod_eq_of_lt wraps]
  have left : ((s.heap p).iSize - (s.fileTable fdIdx).fdPos).toNat = total - pos := by
    rw [BitVec.toNat_sub, length, place]
    omega
  have nothing : (s.heap p).iSize - (s.fileTable fdIdx).fdPos = 0 ↔ pos = total := by
    have zero : (0 : Word).toNat = 0 := rfl
    rw [← BitVec.toNat_inj, left]
    omega
  unfold fileRead
  rw [get_bind]
  simp only [held]
  rw [get_bind, get_bind]
  grind [run_pure]

theorem fileRead_wraps (wraps : 2 ^ 32 ≤ pos + count.toNat) :
    fileRead fdIdx count s = readFrom fdIdx (s.heap p) (s.fileTable fdIdx).fdPos count s := by
  have sum : ((s.fileTable fdIdx).fdPos + count).toNat = (pos + count.toNat) % 2 ^ 32 := by
    rw [BitVec.toNat_add, place]
  unfold fileRead
  rw [get_bind]
  simp only [held]
  rw [get_bind, get_bind]
  simp only [sum, length]
  rw [if_neg (by omega)]

end

theorem fileRead_eq_ok (held : (s.fileTable fdIdx).fdInode = some p)
    (ready : s.FileReadable (s.heap p) has) (length : (s.heap p).iSize.toNat = total)
    (place : (s.fileTable fdIdx).fdPos.toNat = pos) (inside : pos ≤ total) (small : total < 140 * 512)
    (positive : 0 < count.toNat) :
    fileRead fdIdx count s = .ok r ↔ pos + count.toNat < 2 ^ 32 ∧
      ((pos = total ∧ r = (none, s)) ∨
        (pos < total ∧ min total (pos + count.toNat) < 139 * 512 ∧
          r = (some (s.dataAt (s.heap p) pos (min count.toNat (total - pos))),
            s.seekBy fdIdx (min count.toNat (total - pos))))) := by
  by_cases wraps : pos + count.toNat < 2 ^ 32
  · obtain ⟨size, cut, run⟩ := fileRead_cut held length place inside wraps
    rw [run]
    by_cases done : pos = total
    · -- At the end of the file any positive count is too much.
      grind
    · have below : pos < total := by omega
      have chunk : pos + min count.toNat (total - pos) = min total (pos + count.toNat) := by omega
      have fits := ready.below_of_le length (by omega : pos + min count.toNat (total - pos) ≤ total)
      rw [if_neg fun both => done both.2, readFrom_eq_ok ready place cut fits (by omega), chunk]
      simp only [wraps, done, below, true_and, false_and, false_or]
  · -- A sum that wraps looks small, and the loop runs past the last block.
    rw [fileRead_wraps held length place inside (by omega)]
    refine iff_of_false (fun run => ?_) (fun both => wraps both.1)
    have := readFrom_bound place positive run
    omega

end

end LaiMiniOs
