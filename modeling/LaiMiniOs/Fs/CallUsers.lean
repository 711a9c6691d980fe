import LaiMiniOs.Fs.Creation
import LaiMiniOs.Fs.Users

/-! The handles that the system calls on paths take and give back.

`search_file` leaves one directory open for its caller. What a call does between that and its
end is steady, so the cache at its end is known from the handles that it has closed.
-/

set_option autoImplicit false

namespace LaiMiniOs
open Foundation Prog

variable {stack : Stack} {path : List Byte} {r : Int} {d : Dir} {held : List Nat} {n no : Word}
  {record : PathSearchRecord}

/-- The handle that a directory stands for; `root_dir` is never closed. -/
def Dir.handles : Dir → List Nat
  | .root => []
  | .opened p => [p]

/-- A call that started in `s` holds these handles; the tables are as they were. -/
structure Fs.Holds (s : Fs) (held : List Nat) (s' : Fs) : Prop where
  cache : s.toKernel.Held held s'.toKernel
  geometry : s'.part.geometry = s.part.geometry
  rootDir : s'.rootDir = s.rootDir
  fileTable : s'.fileTable = s.fileTable
  fdTable : s'.fdTable = s.fdTable
  freedPages : s'.freedPages = s.freedPages

/-- A mounted partition, and a cache in which every inode has users, but not too many. -/
structure Fs.Ready (s : Fs) : Prop where
  layout : Layout s.part
  sound : s.toKernel.Sound
  roomy : s.toKernel.Roomy

namespace Fs.Holds

variable {s t t' : Fs} {held : List Nat} (ready : s.Ready)

theorem layout (holds : s.Holds held t) (ready : s.Ready) : Layout t.part := ready.layout.congr holds.geometry

theorem refl (ready : s.Ready) : s.Holds [] s := ⟨.refl ready.sound, rfl, rfl, rfl, rfl, rfl⟩

theorem steady (holds : s.Holds held t) (step : t.Steady t') : s.Holds held t' where
  cache := holds.cache.congr (Nat.le_of_eq step.brk.symm) step.openInodes fun p _ =>
    ⟨(step.heap p).iOpenCnts, (step.heap p).iNo⟩
  geometry := step.geometry.trans holds.geometry
  rootDir := step.rootDir.trans holds.rootDir
  fileTable := step.fileTable.trans holds.fileTable
  fdTable := step.fdTable.trans holds.fdTable
  freedPages := step.freedPages.trans holds.freedPages

theorem perm {held' : List Nat} (holds : s.Holds held t) (same : held.Perm held') : s.Holds held' t :=
  ⟨holds.cache.perm same, holds.geometry, holds.rootDir, holds.fileTable, holds.fdTable, holds.freedPages⟩

include ready in
theorem inodeOpen (holds : s.Holds held t) (few : held.length ≤ 6) {p : Nat} (run : inodeOpen n t = .ok (p, t')) :
    s.Holds (p :: held) t' := by
  obtain ⟨-, result⟩ := (inodeOpen_eq_ok (holds.layout ready)).mp run
  obtain ⟨rfl, rfl⟩ := Prod.mk.inj result
  have tables : ∀ {A : Type} (f : Kernel → A),
      (∀ (k : Kernel) (p : Nat) (inode : Inode), f (k.setInode p inode) = f k) →
      (∀ (k : Kernel) (brk : Nat) (list : List Nat), f { k with brk := brk, openInodes := list } = f k) →
      f (t.toKernel.opened n (t.volume.record n.toNat)).2 = f t.toKernel := by grind [Kernel.opened]
  refine ⟨holds.cache.open ready.roomy few n _, holds.geometry, ?_, ?_, ?_, ?_⟩
  · exact (tables Kernel.rootDir (fun _ _ _ => rfl) fun _ _ _ => rfl).trans holds.rootDir
  · exact (tables Kernel.fileTable (fun _ _ _ => rfl) fun _ _ _ => rfl).trans holds.fileTable
  · exact (tables Kernel.fdTable (fun _ _ _ => rfl) fun _ _ _ => rfl).trans holds.fdTable
  · exact (tables Kernel.freedPages (fun _ _ _ => rfl) fun _ _ _ => rfl).trans holds.freedPages

include ready in
theorem inodeClose (holds : s.Holds held t) {p : Nat} (mine : p ∈ held) (run : inodeClose p t = .ok ((), t')) :
    s.Holds (held.erase p) t' := by
  rw [inodeClose_eq] at run
  obtain ⟨-, rfl⟩ := Prod.mk.inj (Except.ok.inj run)
  exact ⟨holds.cache.close ready.sound mine, holds.geometry, holds.rootDir, holds.fileTable, holds.fdTable,
    holds.freedPages⟩

end Fs.Holds

/-- Something that is known of the handles a call has, and that opening and closing keep up to date. -/
structure Tracks (P : List Nat → Fs → Prop) : Prop where
  opens : ∀ {held : List Nat} {t t' : Fs} {n : Word} {p : Nat}, P held t → held.length ≤ 6 →
    inodeOpen n t = .ok (p, t') → P (p :: held) t'
  closes : ∀ {held : List Nat} {t t' : Fs} {p : Nat}, P (p :: held) t → inodeClose p t = .ok ((), t') → P held t'

theorem eq_of_keeps {A : Type} {x : FsM A} (keeps : Prog.Keeps Eq x) {t t' : Fs} {a : A} (run : x t = .ok (a, t')) :
    t = t' :=
  (keeps.within t).run (fun _ => rfl) (fun _ _ _ => Eq.trans) run

namespace Tracks

variable {P : List Nat → Fs → Prop} (tracks : Tracks P) {t t' : Fs}
include tracks

theorem dirOpen (known : P held t) (few : held.length ≤ 6) (run : dirOpen n t = .ok (d, t')) :
    P (d.handles ++ held) t' := by
  obtain ⟨p, _, open_, last⟩ := bind_eq_ok.mp run
  cases last
  exact tracks.opens known few open_

theorem dirClose (known : P (d.handles ++ held) t) (run : dirClose d t = .ok ((), t')) : P held t' := by
  cases d with
  | root =>
    cases run
    exact known
  | opened p => exact tracks.closes known run

theorem finish (known : P d.handles t) (run : LaiMiniOs.dirClose d t = .ok ((), t')) : P [] t' :=
  tracks.dirClose ((List.append_nil d.handles).symm ▸ known) run

theorem move {d' : Dir} {t₁ : Fs} (known : P d.handles t) (close : LaiMiniOs.dirClose d t = .ok ((), t₁))
    (open_ : LaiMiniOs.dirOpen n t₁ = .ok (d', t')) : P d'.handles t' := by
  have opened := tracks.dirOpen (tracks.finish known close) (Nat.zero_le _) open_
  rwa [List.append_nil] at opened

theorem searchLoop {fuel : Nat} {w : SearchState} (known : P w.parentDir.handles t)
    (run : searchLoop fuel w t = .ok ((no, record), t')) : P record.parentDir.handles t' := by
  induction fuel generalizing w t with
  | zero => cases run
  | succ fuel ih =>
    rw [LaiMiniOs.searchLoop] at run
    split at run
    · obtain ⟨_, t₁, close, run⟩ := bind_eq_ok.mp run
      obtain ⟨d, t₂, open_, last⟩ := bind_eq_ok.mp run
      cases last
      exact tracks.move known close open_
    · obtain ⟨-, run⟩ := require_bind_eq_ok.mp run
      obtain ⟨-, run⟩ := require_bind_eq_ok.mp run
      rw [get_bind] at run
      obtain ⟨found, t₁, search, run⟩ := bind_eq_ok.mp run
      obtain rfl := eq_of_keeps (searchDirEntry_keeps _ _) search
      cases found with
      | none =>
        cases run
        exact known
      | some entry =>
        obtain ⟨⟨name, subPath⟩, t₂, parse, run⟩ := bind_eq_ok.mp run
        obtain rfl := eq_of_keeps (parseNext_keeps _) parse
        dsimp only at run
        split at run
        · rw [get_bind] at run
          obtain ⟨_, t₃, close, run⟩ := bind_eq_ok.mp run
          obtain ⟨d, t₄, open_, run⟩ := bind_eq_ok.mp run
          exact ih (tracks.move known close open_) run
        · split at run
          · cases run
            exact known
          · refine ih ?_ run
            exact known

theorem searchFile (known : P [] t)
    (run : searchFile stack path t = .ok ((no, record), t')) : P record.parentDir.handles t' := by
  unfold LaiMiniOs.searchFile at run
  split at run
  · cases run
    exact known
  · obtain ⟨-, run⟩ := require_bind_eq_ok.mp run
    obtain ⟨⟨name, subPath⟩, t₁, parse, run⟩ := bind_eq_ok.mp run
    obtain rfl := eq_of_keeps (parseName_keeps _) parse
    refine tracks.searchLoop ?_ run
    exact known

theorem refuse (known : P record.parentDir.handles t) (run : refuse record t = .ok (r, t')) :
    r = -1 ∧ P [] t' := by
  obtain ⟨_, t₁, close, last⟩ := bind_eq_ok.mp run
  cases last
  exact ⟨rfl, tracks.finish known close⟩

theorem openChecks {flags : Word} {found : Option (Word × PathSearchRecord)} (known : P [] t)
    (run : openChecks stack path flags t = .ok (found, t')) : P (found.elim [] fun f => f.2.parentDir.handles) t' := by
  have drop {record : PathSearchRecord} {u : Fs} (known : P record.parentDir.handles u)
      (run : dropSearch record u = .ok (found, t')) :
      P (found.elim [] fun f => f.2.parentDir.handles) t' := by
    obtain ⟨_, t₁, close, last⟩ := bind_eq_ok.mp run
    cases last
    exact tracks.finish known close
  obtain ⟨-, run⟩ := require_bind_eq_ok.mp run
  split at run
  · cases run
    exact known
  · obtain ⟨-, run⟩ := require_bind_eq_ok.mp run
    obtain ⟨_, t₁, count, run⟩ := bind_eq_ok.mp run
    obtain rfl := eq_of_keeps (pathDepthCnt_keeps _ _) count
    obtain ⟨⟨no, record⟩, t₂, search, run⟩ := bind_eq_ok.mp run
    have known := tracks.searchFile known search
    dsimp only at run
    split at run
    · exact drop known run
    · obtain ⟨_, t₃, count', run⟩ := bind_eq_ok.mp run
      obtain rfl := eq_of_keeps (pathDepthCnt_keeps _ _) count'
      split at run
      · exact drop known run
      · split at run
        · exact drop known run
        · split at run
          · exact drop known run
          · cases run
            exact known

end Tracks

section
variable {s t t' : Fs} (ready : s.Ready)
include ready

theorem tracks_holds : Tracks s.Holds where
  opens holds few run := holds.inodeOpen ready few run
  closes holds run := by
    have closed := holds.inodeClose ready List.mem_cons_self run
    rwa [List.erase_cons_head] at closed

theorem Fs.Holds.dirOpen (holds : s.Holds held t) (few : held.length ≤ 6) (run : dirOpen n t = .ok (d, t')) :
    s.Holds (d.handles ++ held) t' := (tracks_holds ready).dirOpen holds few run

theorem Fs.Holds.dirClose (holds : s.Holds (d.handles ++ held) t) (run : dirClose d t = .ok ((), t')) :
    s.Holds held t' := (tracks_holds ready).dirClose holds run

theorem Fs.Holds.finish (holds : s.Holds d.handles t) (run : LaiMiniOs.dirClose d t = .ok ((), t')) : s.Holds [] t' :=
  (tracks_holds ready).finish holds run

theorem searchFile_holds
    (run : searchFile stack path s = .ok ((no, record), t')) : s.Holds record.parentDir.handles t' :=
  (tracks_holds ready).searchFile (.refl ready) run

theorem refuse_holds (holds : s.Holds record.parentDir.handles t)
    (run : refuse record t = .ok (r, t')) : r = -1 ∧ s.Holds [] t' := (tracks_holds ready).refuse holds run

theorem inodeRelease_holds (holds : s.Holds held t) (few : held.length ≤ 6)
    (run : inodeRelease n t = .ok ((), t')) : s.Holds held t' := by
  obtain ⟨p, t₁, open_, run⟩ := bind_eq_ok.mp run
  have opened := holds.inodeOpen ready few open_
  rw [get_bind] at run
  obtain ⟨-, run⟩ := require_bind_eq_ok.mp run
  obtain ⟨_, t₂, table, run⟩ := bind_eq_ok.mp run
  obtain ⟨_, t₃, blocks, run⟩ := bind_eq_ok.mp run
  obtain ⟨_, t₄, clear, run⟩ := bind_eq_ok.mp run
  obtain ⟨_, t₅, sync, run⟩ := bind_eq_ok.mp run
  obtain ⟨_, t₆, delete, close⟩ := bind_eq_ok.mp run
  have steady :=
    ((((Fs.Steady.run (readTable_keeps _) table).trans (.run (releaseBlocks_keeps .steady _ _) blocks)).trans
    (Fs.Steady.run (bitmapSet_keeps (.setBit _ _ _)) clear)).trans (.run (bitmapSync_keeps .steady _ _) sync)).trans
      (.run (inodeDelete_keeps .steady _) delete)
  have closed := (opened.steady steady).inodeClose ready List.mem_cons_self close
  rwa [List.erase_cons_head] at closed

theorem dirRemove_holds {parent child : Nat} (holds : s.Holds held t) (few : held.length ≤ 6)
    (run : dirRemove parent child t = .ok (r, t')) : s.Holds held t' := by
  unfold dirRemove at run
  rw [bind_eq_ok] at run
  obtain ⟨_, t₁, empty, run⟩ := run
  have steady₁ := Fs.Steady.run (assertNoBlocks_keeps child) empty
  rw [get_bind] at run
  obtain ⟨_, t₂, delete, run⟩ := bind_eq_ok.mp run
  rw [get_bind] at run
  obtain ⟨_, t₃, release, last⟩ := bind_eq_ok.mp run
  cases last
  exact inodeRelease_holds ready (holds.steady (steady₁.trans (.run (deleteDirEntry_keeps .steady _ _) delete)))
    few release

theorem sysUnlink_holds (run : sysUnlink stack path s = .ok (r, t')) : s.Holds [] t' := by
  obtain ⟨-, run⟩ := require_bind_eq_ok.mp run
  obtain ⟨⟨no, record⟩, t₁, search, run⟩ := bind_eq_ok.mp run
  have found := searchFile_holds ready search
  obtain ⟨-, run⟩ := require_bind_eq_ok.mp run
  split at run
  · exact (refuse_holds ready found run).2
  · rw [get_bind] at run
    split at run
    · exact (refuse_holds ready found run).2
    · rw [get_bind] at run
      obtain ⟨_, t₂, delete, run⟩ := bind_eq_ok.mp run
      obtain ⟨_, t₃, release, run⟩ := bind_eq_ok.mp run
      obtain ⟨_, t₄, close, last⟩ := bind_eq_ok.mp run
      cases last
      have few : record.parentDir.handles.length ≤ 6 := by
        cases record.parentDir <;> simp [Dir.handles]
      have released :=
        inodeRelease_holds ready (found.steady (.run (deleteDirEntry_keeps .steady _ _) delete)) few release
      exact released.finish ready close

theorem makeDir_holds {parentDir : Dir} {dirname : List Byte} (holds : s.Holds parentDir.handles t)
    (run : makeDir parentDir dirname t = .ok (r, t')) : s.Holds [] t' := by
  have layout := holds.layout ready
  obtain ⟨i, b, -, -, -, -, -, u, _, enters, close, result⟩ := (makeDir_eq_ok layout).mp run
  cases result
  have taken : t.Steady (t.newDir i b (t.heap (parentDir.inode t)).iNo) :=
    (((Fs.Steady.setBit .inode i true t).trans (.setBit .block b true _)).trans (.of_kernel rfl rfl)).trans
      (.of_kernel rfl rfl)
  have entered := enters.steady (layout.congr (geometry_newDir t i b _))
  have stored : u.Steady (u.dirCreated (parentDir.inode t) i (t.lbaOf b)) := .of_kernel rfl rfl
  exact (holds.steady ((taken.trans entered).trans stored)).finish ready close

theorem sysMkdir_holds (run : sysMkdir stack path s = .ok (r, t')) : s.Holds [] t' := by
  obtain ⟨⟨no, record⟩, t₁, search, run⟩ := bind_eq_ok.mp run
  have found := searchFile_holds ready search
  dsimp only at run
  split at run
  · exact (refuse_holds ready found run).2
  · obtain ⟨_, t₂, count, run⟩ := bind_eq_ok.mp run
    obtain ⟨_, t₃, count', run⟩ := bind_eq_ok.mp run
    have holds₃ := (found.steady (.run (pathDepthCnt_keeps _ _) count)).steady (.run (pathDepthCnt_keeps _ _) count')
    grind [run, refuse_holds, makeDir_holds]

omit ready in
theorem few_handles (d d' : Dir) : (d.handles ++ d'.handles).length ≤ 6 := by
  cases d <;> cases d' <;> simp [Dir.handles]

theorem sysRmdir_holds (run : sysRmdir stack path s = .ok (r, t')) : s.Holds [] t' := by
  obtain ⟨⟨no, record⟩, t₁, search, run⟩ := bind_eq_ok.mp run
  have found := searchFile_holds ready search
  obtain ⟨-, run⟩ := require_bind_eq_ok.mp run
  split at run
  · exact (refuse_holds ready found run).2
  · obtain ⟨d, t₂, open_, run⟩ := bind_eq_ok.mp run
    have opened := found.dirOpen ready (few_handles .root _) open_
    obtain ⟨_, t₃, remove, run⟩ := bind_eq_ok.mp run
    obtain ⟨_, t₄, close, run⟩ := bind_eq_ok.mp run
    obtain ⟨_, t₅, close', last⟩ := bind_eq_ok.mp run
    cases last
    have removed : s.Holds (d.handles ++ record.parentDir.handles) t₃ := by
      unfold removeIfEmpty at remove
      rw [get_bind] at remove
      obtain ⟨empty, t₆, check, remove⟩ := bind_eq_ok.mp remove
      have holds₆ := opened.steady (.run (dirIsEmpty_keeps _) check)
      split at remove
      · exact dirRemove_holds ready holds₆ (few_handles _ _) remove
      · cases remove
        exact holds₆
    exact (removed.dirClose ready close).finish ready close'

theorem sysOpendir_holds {r : Option Dir} (run : sysOpendir stack path s = .ok (r, t')) :
    s.Holds (r.elim [] Dir.handles) t' := by
  obtain ⟨-, run⟩ := require_bind_eq_ok.mp run
  split at run
  · cases run
    exact .refl ready
  · obtain ⟨⟨no, record⟩, t₁, search, run⟩ := bind_eq_ok.mp run
    have found := searchFile_holds ready search
    dsimp only at run
    split at run
    · obtain ⟨d, t₂, open_, run⟩ := bind_eq_ok.mp run
      obtain ⟨_, t₃, close, last⟩ := bind_eq_ok.mp run
      cases last
      exact ((found.dirOpen ready (few_handles .root _) open_).perm List.perm_append_comm).dirClose ready close
    · obtain ⟨_, t₂, close, last⟩ := bind_eq_ok.mp run
      cases last
      exact found.finish ready close

theorem sysChdir_holds (run : sysChdir stack path s = .ok (r, t')) : s.Holds [] t' := by
  obtain ⟨⟨no, record⟩, t₁, search, run⟩ := bind_eq_ok.mp run
  have found := searchFile_holds ready search
  dsimp only at run
  split at run
  · rw [modify_bind] at run
    obtain ⟨_, t₂, close, last⟩ := bind_eq_ok.mp run
    cases last
    -- The working directory is not part of the cache.
    have moved : s.Holds record.parentDir.handles { t₁ with cwdInodeNr := no } :=
      ⟨found.cache.congr (Nat.le_refl _) rfl fun _ _ => ⟨rfl, rfl⟩, found.geometry, found.rootDir, found.fileTable,
        found.fdTable, found.freedPages⟩
    exact moved.finish ready close
  · exact (refuse_holds ready found run).2

theorem sysStat_holds {r : Option Stat} (run : sysStat stack path s = .ok (r, t')) : s.Holds [] t' := by
  unfold sysStat at run
  split at run
  · cases run
    exact .refl ready
  · obtain ⟨⟨no, record⟩, t₁, search, run⟩ := bind_eq_ok.mp run
    have found := searchFile_holds ready search
    dsimp only at run
    split at run
    · obtain ⟨p, t₂, open_, run⟩ := bind_eq_ok.mp run
      have opened := found.inodeOpen ready (few_handles .root _) open_
      rw [get_bind] at run
      obtain ⟨_, t₃, close, run⟩ := bind_eq_ok.mp run
      obtain ⟨_, t₄, close', last⟩ := bind_eq_ok.mp run
      cases last
      have closed := opened.inodeClose ready List.mem_cons_self close
      rw [List.erase_cons_head] at closed
      exact closed.finish ready close'
    · obtain ⟨_, t₂, close, last⟩ := bind_eq_ok.mp run
      cases last
      exact found.finish ready close

end

end LaiMiniOs
