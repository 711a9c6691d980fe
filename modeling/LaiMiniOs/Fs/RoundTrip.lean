import Mathlib.Data.List.GetD
import LaiMiniOs.Fs.FileRead

/-! What is written to a new file is what is read from it.

The model of an open file is the list of its bytes. A run of writes appends to the list and a
run of reads goes through it, as far as the limits of the two functions allow.
-/

set_option autoImplicit false

namespace LaiMiniOs
open Foundation Prog

variable {fdIdx p has n : Nat} {data : List Byte}

def bufferOf (bytes : List Byte) : Memory := fun i => bytes.getD i 0

def writeAll (fdIdx : Nat) : List (List Byte) → FsM (List Int)
  | [] => return []
  | buf :: rest => do
    let result ← fileWrite fdIdx (bufferOf buf) (BitVec.ofNat 32 buf.length)
    return result :: (← writeAll fdIdx rest)

def readAll (fdIdx : Nat) : List Word → FsM (List (Option (List Byte)))
  | [] => return []
  | count :: rest => do
    let result ← fileRead fdIdx count
    return result :: (← readAll fdIdx rest)

def readsOf (data : List Byte) : Nat → List Word → List (Option (List Byte))
  | _, [] => []
  | pos, count :: rest =>
    (if pos < data.length then some ((data.drop pos).take count.toNat) else none) ::
      readsOf data (min data.length (pos + count.toNat)) rest

/-- No read of the run wraps around, and none that returns data ends behind block 138. -/
def ReadsFit (total : Nat) : Nat → List Word → Prop
  | _, [] => True
  | pos, count :: rest => pos + count.toNat < 2 ^ 32 ∧ (pos < total → min total (pos + count.toNat) < 139 * 512) ∧
      ReadsFit total (min total (pos + count.toNat)) rest

structure Fs.FileHolds (s : Fs) (fdIdx p has : Nat) (data : List Byte) : Prop where
  layout : Layout s.part
  root : s.volume.bit .block 0 = true
  held : (s.fileTable fdIdx).fdInode = some p
  owns : s.Owns (s.heap p)
  shape : s.FileShape (s.heap p) has
  size : (s.heap p).iSize.toNat = data.length
  content : ∀ x, x < data.length → s.volume.byte (s.heap p) x = data.getD x 0

section
variable {s : Fs}

theorem Fs.FileHolds.written {will : Nat} {buf : List Byte} {s' : Fs}
    (holds : s.FileHolds fdIdx p has data) (small : buf.length < 2 ^ 32)
    (written : FileWritten fdIdx p has will (bufferOf buf) (BitVec.ofNat 32 buf.length) s s') :
    s'.FileHolds fdIdx p will (data ++ buf) := by
  have count : (BitVec.ofNat 32 buf.length).toNat = buf.length := Nat.mod_eq_of_lt small
  have length : (s'.heap p).iSize.toNat = data.length + buf.length := by
    rw [written.inode, ← written.noWrap, count, holds.size]
  refine ⟨holds.layout.congr written.extended.geometry, (written.extended.blockBits 0).mpr (.inl holds.root), ?_,
    written.extended.owns holds.owns, ⟨written.hasBlocks, .inr ?_⟩, ?_, ?_⟩
  · rw [written.kernel]
    simp [holds.held]
  · rw [written.blocks, length, count, holds.size]
  · rw [length, List.length_append]
  · intro x below
    rw [List.length_append] at below
    rw [written.content x (by rw [holds.size, count]; exact below), holds.size]
    by_cases old : x < data.length
    · rw [if_pos old, holds.content x old, List.getD_append _ _ _ _ old]
    · rw [if_neg old, List.getD_append_right _ _ _ _ (by omega)]
      rfl

theorem blocksOf_mono {m : Nat} (le : m ≤ n) : blocksOf m ≤ blocksOf n := by
  unfold blocksOf
  split <;> split <;> omega

theorem writeAll_of_room {bufs : List (List Byte)}
    (holds : s.FileHolds fdIdx p has data) (ready : s.FileReady (s.heap p) has)
    (fits : data.length + bufs.flatten.length < 140 * 512)
    (room : blocksOf ((data.length + bufs.flatten.length) / 512 + 1) ≤ s.free.card + blocksOf has) :
    ∃ s' has', writeAll fdIdx bufs s = .ok (bufs.map fun buf => (buf.length : Int), s') ∧
      s'.FileHolds fdIdx p has' (data ++ bufs.flatten) ∧ s'.FileReady (s'.heap p) has' := by
  induction bufs generalizing s data has with
  | nil =>
    rw [List.flatten_nil, List.append_nil]
    exact ⟨s, has, rfl, holds, ready⟩
  | cons buf rest ih =>
    rw [List.flatten_cons, List.length_append] at fits room
    have count : (BitVec.ofNat 32 buf.length).toNat = buf.length := Nat.mod_eq_of_lt (by omega)
    obtain ⟨s₁, run, written, ready₁, free₁⟩ := fileWrite_of_room (bufferOf buf)
      (BitVec.ofNat 32 buf.length) holds.layout holds.held ready holds.root
      (by rw [holds.size, count]; omega)
      (by rw [holds.size, count]
          exact (blocksOf_mono (by omega)).trans room)
    obtain ⟨s', has', rest_run, holds', ready'⟩ := ih (holds.written (by omega) written) ready₁
      (by rw [List.length_append]; omega) (by rw [free₁, List.length_append, Nat.add_assoc]; exact room)
    refine ⟨s', has', ?_, by rw [List.flatten_cons, ← List.append_assoc]; exact holds', ready'⟩
    rw [writeAll, bind_of_ok run, bind_of_ok rest_run, count]
    rfl

theorem writeAll_cons_written {buf : List Byte} {rest : List (List Byte)} {s' : Fs}
    (holds : s.FileHolds fdIdx p has data) (small : buf.length < 2 ^ 32)
    (run : writeAll fdIdx (buf :: rest) s = .ok ((buf :: rest).map fun buf => (buf.length : Int), s')) :
    ∃ s₁ will, fileWrite fdIdx (bufferOf buf) (BitVec.ofNat 32 buf.length) s =
        .ok (((BitVec.ofNat 32 buf.length).toNat : Int), s₁) ∧
      FileWritten fdIdx p has will (bufferOf buf) (BitVec.ofNat 32 buf.length) s s₁ ∧
      writeAll fdIdx rest s₁ = .ok (rest.map fun buf => (buf.length : Int), s') := by
  obtain ⟨result, s₁, first, run⟩ := bind_eq_ok.mp run
  obtain ⟨results, s₂, others, last⟩ := bind_eq_ok.mp run
  rw [run_pure, Except.ok.injEq, Prod.mk.injEq, List.map_cons, List.cons.injEq] at last
  obtain ⟨⟨rfl, rfl⟩, rfl⟩ := last
  have count : (BitVec.ofNat 32 buf.length).toNat = buf.length := Nat.mod_eq_of_lt small
  have returned : fileWrite fdIdx (bufferOf buf) (BitVec.ofNat 32 buf.length) s =
      .ok (((BitVec.ofNat 32 buf.length).toNat : Int), s₁) := by rw [count]; exact first
  obtain ⟨_, _, _, _, writes⟩ := (fileWrite_eq_ok holds.layout holds.held).mp returned
  exact ⟨s₁, _, returned, (writes.written holds.layout holds.owns holds.shape).1, others⟩

theorem writeAll_bound {bufs : List (List Byte)} {s' : Fs}
    (holds : s.FileHolds fdIdx p has data) (below : data.length < 140 * 512)
    (small : ∀ buf ∈ bufs, buf.length < 2 ^ 32)
    (run : writeAll fdIdx bufs s = .ok (bufs.map fun buf => (buf.length : Int), s')) :
    data.length + bufs.flatten.length < 140 * 512 := by
  induction bufs generalizing s data has with
  | nil => simpa using below
  | cons buf rest ih =>
    have bound := small buf List.mem_cons_self
    have count : (BitVec.ofNat 32 buf.length).toNat = buf.length := Nat.mod_eq_of_lt bound
    obtain ⟨s₁, will, -, written, others⟩ := writeAll_cons_written holds bound run
    have limit := written.small
    rw [written.blocks, holds.size, count] at limit
    have later := ih (holds.written bound written) (by rw [List.length_append]; omega)
      (fun other member => small other (List.mem_cons_of_mem _ member)) others
    rw [List.length_append] at later
    rw [List.flatten_cons, List.length_append]
    omega

theorem Fs.FileHolds.dataAt {pos : Nat} (holds : s.FileHolds fdIdx p has data)
    (inside : pos + n ≤ data.length) : s.dataAt (s.heap p) pos n = (data.drop pos).take n := by
  refine List.ext_getElem ?_ fun i low high => ?_
  · grind [Fs.dataAt]
  grind [Fs.dataAt, holds.content]

theorem Fs.FileHolds.seekBy (holds : s.FileHolds fdIdx p has data) :
    (s.seekBy fdIdx n).FileHolds fdIdx p has data :=
  ⟨holds.layout, holds.root, by rw [fdInode_seekBy]; exact holds.held, ⟨holds.owns.used, holds.owns.apart⟩,
    ⟨holds.shape.blocks, holds.shape.size⟩, holds.size, holds.content⟩

theorem Fs.FileReady.seekBy (ready : s.FileReady (s.heap p) has) :
    (s.seekBy fdIdx n).FileReady ((s.seekBy fdIdx n).heap p) has :=
  ⟨⟨ready.shape.blocks, ready.shape.size⟩, ⟨ready.owns.used, ready.owns.apart⟩, ready.onDisk, ready.noTable⟩

theorem readAll_iff {pos : Nat} {counts : List Word}
    (holds : s.FileHolds fdIdx p has data) (ready : s.FileReady (s.heap p) has)
    (place : (s.fileTable fdIdx).fdPos.toNat = pos) (inside : pos ≤ data.length) (small : data.length < 140 * 512)
    (positive : ∀ count ∈ counts, 0 < count.toNat) :
    (∃ s', readAll fdIdx counts s = .ok (readsOf data pos counts, s')) ↔ ReadsFit data.length pos counts := by
  induction counts generalizing s pos with
  | nil => exact iff_of_true ⟨s, rfl⟩ trivial
  | cons count rest ih =>
    have read {r : Option (List Byte) × Fs} := fileRead_eq_ok holds.held ready.readable holds.size place inside small
      (positive count List.mem_cons_self) (r := r)
    have others : ∀ count ∈ rest, 0 < count.toNat := fun c member => positive c (List.mem_cons_of_mem _ member)
    by_cases done : pos = data.length
    · -- The position stays at the end.
      have stays : min data.length (pos + count.toNat) = pos := by omega
      have before : ¬ pos < data.length := by omega
      have later := ih holds ready place inside others
      simp only [ReadsFit, readsOf, stays, before, if_false, false_implies, true_and]
      constructor
      · rintro ⟨s', run⟩
        obtain ⟨_, s₁, first, run⟩ := bind_eq_ok.mp run
        obtain ⟨_, _, loop, last⟩ := bind_eq_ok.mp run
        grind [run_pure]
      · rintro ⟨wraps, fit⟩
        obtain ⟨s', loop⟩ := later.mpr fit
        refine ⟨s', ?_⟩
        rw [readAll, bind_of_ok (read.mpr ⟨wraps, .inl ⟨done, rfl⟩⟩), bind_of_ok loop]
        rfl
    · have below : pos < data.length := by omega
      have moves : min data.length (pos + count.toNat) = pos + min count.toNat (data.length - pos) := by omega
      have place' : ((s.seekBy fdIdx (min count.toNat (data.length - pos))).fileTable fdIdx).fdPos.toNat =
          min data.length (pos + count.toNat) := by
        rw [fdPos_seekBy, BitVec.toNat_add, BitVec.toNat_ofNat, place]
        omega
      have chunk : s.dataAt (s.heap p) pos (min count.toNat (data.length - pos)) = (data.drop pos).take count.toNat :=
        by
        rw [holds.dataAt (by omega), ← List.length_drop, List.take_eq_take_iff]
        omega
      have later := ih (holds.seekBy (n := min count.toNat (data.length - pos))) ready.seekBy place' (by omega) others
      simp only [ReadsFit, readsOf, below, if_true, true_implies]
      constructor
      · rintro ⟨s', run⟩
        obtain ⟨_, s₁, first, run⟩ := bind_eq_ok.mp run
        obtain ⟨_, _, loop, last⟩ := bind_eq_ok.mp run
        grind [run_pure]
      · rintro ⟨wraps, limit, fit⟩
        obtain ⟨s', loop⟩ := later.mpr fit
        refine ⟨s', ?_⟩
        rw [readAll, bind_of_ok (read.mpr ⟨wraps, .inr ⟨below, limit, rfl⟩⟩), bind_of_ok loop, chunk]
        rfl

structure Fs.NewFile (s : Fs) (fdIdx p : Nat) : Prop where
  layout : Layout s.part
  /-- The first block belongs to the root directory. -/
  root : s.volume.bit .block 0 = true
  held : (s.fileTable fdIdx).fdInode = some p
  size : (s.heap p).iSize = 0
  empty : ∀ k, (s.heap p).sector k = 0

theorem Fs.NewFile.pointer (new : s.NewFile fdIdx p) (k : Nat) :
    s.volume.pointer (s.heap p) k = 0 := by
  by_cases direct : k < 12
  · rw [Volume.pointer_direct _ _ direct, new.empty]
  · exact Volume.pointer_of_no_table (new.empty 12) (by omega)

theorem Fs.NewFile.ready (new : s.NewFile fdIdx p) : s.FileReady (s.heap p) 0 where
  shape := ⟨fun k _ => by simp [new.pointer k], .inl ⟨rfl, new.size⟩⟩
  owns := ⟨fun k _ some => absurd (new.pointer k) some, fun k _ _ _ some => absurd (new.pointer k) some⟩
  onDisk k _ := by
    rw [new.pointer k]
    exact Nat.zero_le _
  noTable _ := new.empty 12

theorem Fs.NewFile.holds (new : s.NewFile fdIdx p) : s.FileHolds fdIdx p 0 [] where
  layout := new.layout
  root := new.root
  held := new.held
  owns := new.ready.owns
  shape := new.ready.shape
  size := by
    rw [new.size]
    rfl
  content x below := absurd below (Nat.not_lt_zero x)

def Fs.seekStart (s : Fs) (fdIdx : Nat) : Fs := s.setFile fdIdx { s.fileTable fdIdx with fdPos := 0 }

theorem writeAll_then_reads {bufs : List (List Byte)} {counts : List Word} (new : s.NewFile fdIdx p)
    (positive : ∀ count ∈ counts, 0 < count.toNat) (room : blocksOf (bufs.flatten.length / 512 + 1) ≤ s.free.card)
    (fits : bufs.flatten.length < 512 * 140) :
    ∃ s', writeAll fdIdx bufs s = .ok (bufs.map fun buf => (buf.length : Int), s') ∧
      ((∃ s'', readAll fdIdx counts (s'.seekStart fdIdx) = .ok (readsOf bufs.flatten 0 counts, s'')) ↔
        ReadsFit bufs.flatten.length 0 counts) := by
  obtain ⟨s', has, run, holds, ready⟩ := writeAll_of_room new.holds new.ready
    (by simpa using (by omega : bufs.flatten.length < 140 * 512)) (by simpa [blocksOf] using room)
  rw [List.nil_append] at holds
  have start : ((s'.seekStart fdIdx).fileTable fdIdx).fdPos.toNat = 0 := by
    simp [Fs.seekStart, Fs.setFile]
  have held : ((s'.seekStart fdIdx).fileTable fdIdx).fdInode = some p := by
    simp [Fs.seekStart, Fs.setFile, holds.held]
  have holds' : (s'.seekStart fdIdx).FileHolds fdIdx p has bufs.flatten :=
    ⟨holds.layout, holds.root, held, ⟨holds.owns.used, holds.owns.apart⟩, ⟨holds.shape.blocks, holds.shape.size⟩,
      holds.size, holds.content⟩
  have ready' : (s'.seekStart fdIdx).FileReady ((s'.seekStart fdIdx).heap p) has :=
    ⟨⟨ready.shape.blocks, ready.shape.size⟩, ⟨ready.owns.used, ready.owns.apart⟩, ready.onDisk, ready.noTable⟩
  exact ⟨s', run, readAll_iff holds' ready' start (Nat.zero_le _) (by omega) positive⟩

end

/-- A small disk on which only the root directory's block is used, with a new file in slot 3. -/
def newFileFs : Fs := (blankFs.setBit .block 0 true).setFile 3 ⟨0, 2, some 0⟩

theorem bit_newFileFs (i : Nat) : newFileFs.volume.bit .block i = decide (i = 0) := by
  have volume : newFileFs.volume = blankFs.volume.setBit .block 0 true := volume_setBit blankFs .block 0 true
  have clear : blankFs.volume.bit .block i = false := by
    simp [Fs.volume, blankFs, smallPartition, Partition.bitmap, Bitmap.bit, Memory.zero]
  rw [volume]
  by_cases first : i = 0
  · simp [Volume.setBit, first]
  · simp [Volume.setBit, first, clear]

theorem newFile_newFileFs : newFileFs.NewFile 3 0 where
  layout := layout_smallPartition.congr (geometry_setBit blankFs .block 0 true)
  root := by rw [bit_newFileFs]; rfl
  held := by
    simp [newFileFs, Fs.setFile]
  size := rfl
  empty k := sector_blank k

theorem room_newFileFs : 999 ≤ newFileFs.free.card := by
  have blocks : (Finset.range 1000).erase 0 ⊆ newFileFs.free := by
    intro i member
    rw [Finset.mem_erase, Finset.mem_range] at member
    have count : newFileFs.part.bitCount .block = 4096 := rfl
    have start : newFileFs.part.sb.dataStartLba.toNat = 612 := rfl
    rw [mem_free, bit_newFileFs, count, start, maxLba]
    exact ⟨by omega, by simpa using member.1, by omega⟩
  simpa using Finset.card_le_card blocks

end LaiMiniOs
