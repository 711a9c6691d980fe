import LaiMiniOs.Foundation.Steps
import LaiMiniOs.Fs.State

/-! The partition scan of `device/ide.c`.

`partition_scan` walks the table of the master boot record and, from there, the chain of extended boot
records. The base that the links of the chain are relative to, `ext_lba_base`, and the counters `p_no`
and `l_no` are global variables; `ide_init` resets the counters after each disk, but not the base.
-/

set_option autoImplicit false

namespace LaiMiniOs
open Foundation Prog Function

structure TableEntry where
  fsType : Byte
  startLba : Word
  secCnt : Word
  deriving DecidableEq

def tableEntry (disk : Memory) (lba : Word) (i : Nat) : TableEntry :=
  let bs := sectors disk lba.toNat 1
  ⟨bs (446 + 16 * i + 4), bs.word (446 + 16 * i + 8), bs.word (446 + 16 * i + 12)⟩

def partitionTable (disk : Memory) (lba : Word) : List TableEntry := (List.range 4).map (tableEntry disk lba)

inductive PartKind where
  | primary
  | logical
  deriving DecidableEq

def PartKind.first : PartKind → Nat
  | primary => 1
  | logical => 5

def PartKind.places : PartKind → Nat
  | primary => 4
  | logical => 8

/-- A place of one of the two arrays of a disk, as the scan fills it; `no` is the number in `name`. -/
structure PartSlot where
  myDisk : Nat
  kind : PartKind
  index : Nat
  startLba : Word
  secCnt : Word
  no : Nat
  deriving DecidableEq

/-- The global variables of the scan; `no` holds `p_no` and `l_no`, and the list has the places that its
elements are part of. -/
structure Scan where
  extLbaBase : Word
  no : PartKind → Nat
  partitionList : List PartSlot

abbrev ScanM := Prog Scan

structure Part where
  startLba : Word
  secCnt : Word

def Part.place (part : Part) (hd : Nat) (kind : PartKind) (index : Nat) : PartSlot :=
  ⟨hd, kind, index, part.startLba, part.secCnt, index + kind.first⟩

def recordPart (hd : Nat) (kind : PartKind) (part : Part) : ScanM Unit := do
  let s ← get
  Prog.require (s.no kind < kind.places) .undefined
  modify fun s => { s with
    no := update s.no kind (s.no kind + 1)
    partitionList := s.partitionList ++ [part.place hd kind (s.no kind)] }

def scanEntry (scan : Word → ScanM Unit) (hd : Nat) (extLba : Word) (p : TableEntry) : ScanM Bool := do
  if p.fsType = 5 then do
    let s ← get
    if s.extLbaBase ≠ 0 then
      scan (p.startLba + s.extLbaBase)
    else do
      modify fun s => { s with extLbaBase := p.startLba }
      scan p.startLba
    return true
  else if p.fsType ≠ 0 then do
    if extLba = 0 then do
      recordPart hd .primary ⟨extLba + p.startLba, p.secCnt⟩
      let s ← get
      Prog.assert (s.no .primary < 4)
      return true
    else do
      recordPart hd .logical ⟨extLba + p.startLba, p.secCnt⟩
      let s ← get
      return s.no .logical < 8
  else return true

def scanEntries (scan : Word → ScanM Unit) (hd : Nat) (extLba : Word) : List TableEntry → ScanM Unit
  | [] => pure ()
  | p :: rest => do
    if ← scanEntry scan hd extLba p then
      scanEntries scan hd extLba rest

/-- `partition_scan`, with a bound on the depth of its recursion. -/
def partitionScan (disk : Memory) (hd : Nat) : Nat → Word → ScanM Unit
  | 0, _ => Prog.fail .diverges
  | fuel + 1, extLba => do
    Prog.assert (extLba.toNat ≤ maxLba)
    scanEntries (partitionScan disk hd fuel) hd extLba (partitionTable disk extLba)

def scannedDisk (channelNo : Nat) : Nat := 2 * channelNo + 1

/-- The round of the outer loop of `ide_init` for a channel, as far as the scan goes: its first disk is
the kernel's own and is not scanned. -/
def scanChannel (disks : Nat → Memory) (fuel channelNo : Nat) : ScanM Unit := do
  Prog.require (channelNo < 2) .undefined
  partitionScan (disks (scannedDisk channelNo)) (scannedDisk channelNo) fuel 0
  modify fun s => { s with no := fun _ => 0 }

def channelCnt (hdCnt : Byte) : Nat := (hdCnt.toNat + 1) / 2

def ideInit (disks : Nat → Memory) (fuel : Nat) (hdCnt : Byte) : ScanM Unit := do
  Prog.assert (0 < hdCnt.toNat)
  Prog.forUpTo (scanChannel disks fuel) (channelCnt hdCnt)

def Scan.start (extLbaBase : Word) : Scan := ⟨extLbaBase, fun _ => 0, []⟩

def Scan.recorded (s : Scan) (hd : Nat) (kind : PartKind) : List PartSlot :=
  s.partitionList.filter fun p => p.myDisk = hd ∧ p.kind = kind

/-! ### What the tables say -/

def links (table : List TableEntry) : List TableEntry := table.filter fun e => e.fsType = 5

def primaries (table : List TableEntry) : List Part :=
  (table.filter fun e => e.fsType ≠ 0 ∧ e.fsType ≠ 5).map fun e => ⟨e.startLba, e.secCnt⟩

/-- The logical partitions from the entries of the record at `lba` on: each at the record's lba plus its
`start_lba`, with the next record at `base` plus the `start_lba` of the link. A reading is finite, so the
chain it follows has no cycle. -/
inductive Logical (disk : Memory) (base : Word) : Word → List TableEntry → List Part → Prop where
  | nil {lba : Word} : Logical disk base lba [] []
  | free {lba : Word} {e : TableEntry} {rest : List TableEntry} {parts : List Part} (type : e.fsType = 0)
      (others : Logical disk base lba rest parts) : Logical disk base lba (e :: rest) parts
  | part {lba : Word} {e : TableEntry} {rest : List TableEntry} {parts : List Part} (used : e.fsType ≠ 0)
      (type : e.fsType ≠ 5)
      (others : Logical disk base lba rest parts) :
        Logical disk base lba (e :: rest) (⟨lba + e.startLba, e.secCnt⟩ :: parts)
  | link {lba : Word} {e : TableEntry} {rest : List TableEntry} {next parts : List Part} (type : e.fsType = 5)
      (other : base + e.startLba ≠ 0) (reach : (base + e.startLba).toNat ≤ maxLba)
      (chain : Logical disk base (base + e.startLba) (partitionTable disk (base + e.startLba)) next)
      (others : Logical disk base lba rest parts) : Logical disk base lba (e :: rest) (next ++ parts)

/-- The tables of a disk are well formed, and its logical partitions are these. -/
structure WellFormed (disk : Memory) (logicals : List Part) : Prop where
  single : (links (partitionTable disk 0)).length ≤ 1
  none : links (partitionTable disk 0) = [] → logicals = []
  chain : ∀ e ∈ links (partitionTable disk 0), e.startLba ≠ 0 ∧ e.startLba.toNat ≤ maxLba ∧
    Logical disk e.startLba e.startLba (partitionTable disk e.startLba) logicals
  few : logicals.length ≤ 8

def numbered (hd : Nat) (kind : PartKind) : Nat → List Part → List PartSlot
  | _, [] => []
  | n, part :: rest => part.place hd kind n :: numbered hd kind (n + 1) rest

def Records (s : Scan) (hd : Nat) (disk : Memory) (logicals : List Part) : Prop :=
  s.recorded hd .primary = numbered hd .primary 0 (primaries (partitionTable disk 0)) ∧
    s.recorded hd .logical = numbered hd .logical 0 logicals

/-! ### Readings

A reading of the tables as the scan goes through them, on the sectors alone: the links are relative to
the first one that was followed, or to an older base, and there is no bound on their number.
-/

/-- What a reading has come to: the sector that links are relative to, and the partitions. -/
structure Tally where
  base : Word
  parts : PartKind → List Part

def Tally.start (base : Word) : Tally := ⟨base, fun _ => []⟩

def Tally.add (t : Tally) (kind : PartKind) (part : Part) : Tally :=
  { t with parts := update t.parts kind (t.parts kind ++ [part]) }

def Tally.follow (t : Tally) (start : Word) : Tally :=
  { t with base := if t.base = 0 then start else t.base }

def kindAt (lba : Word) : PartKind := if lba = 0 then .primary else .logical

/-- The entries of the record at `lba` are read, with all tables that they lead to. A reading is finite,
so the links that it follows make no cycle. There are at most three primary partitions and eight logical
ones; the table in which the eighth is found is not read any further. -/
inductive Reading (disk : Memory) : Word → List TableEntry → Tally → Tally → Prop where
  | nil {lba : Word} {t : Tally} : Reading disk lba [] t t
  | free {lba : Word} {e : TableEntry} {rest : List TableEntry} {t t' : Tally} (type : e.fsType = 0)
      (others : Reading disk lba rest t t') : Reading disk lba (e :: rest) t t'
  | part {lba : Word} {e : TableEntry} {rest : List TableEntry} {t t' : Tally} (used : e.fsType ≠ 0)
      (type : e.fsType ≠ 5) (room : (t.parts (kindAt lba)).length + 1 < (kindAt lba).places)
      (others : Reading disk lba rest (t.add (kindAt lba) ⟨lba + e.startLba, e.secCnt⟩) t') :
      Reading disk lba (e :: rest) t t'
  | last {lba : Word} {e : TableEntry} {rest : List TableEntry} {t : Tally} (used : e.fsType ≠ 0)
      (type : e.fsType ≠ 5) (kind : kindAt lba = .logical) (eighth : (t.parts .logical).length = 7) :
      Reading disk lba (e :: rest) t (t.add .logical ⟨lba + e.startLba, e.secCnt⟩)
  | link {lba : Word} {e : TableEntry} {rest : List TableEntry} {t u t' : Tally} (type : e.fsType = 5)
      (reach : (e.startLba + t.base).toNat ≤ maxLba)
      (chain : Reading disk (e.startLba + t.base) (partitionTable disk (e.startLba + t.base))
        (t.follow e.startLba) u)
      (others : Reading disk lba rest u t') : Reading disk lba (e :: rest) t t'

section Reading

variable {disk : Memory} {hd hd' n : Nat} {kind kind' : PartKind} {parts parts' logicals : List Part}
variable {s s' u : Scan} {t t' : Tally} {scan : Word → ScanM Unit} {base lba : Word}
variable {e : TableEntry} {rest es : List TableEntry}

theorem numbered_append : numbered hd kind n (parts ++ parts') =
    numbered hd kind n parts ++ numbered hd kind (n + parts.length) parts' := by
  induction parts generalizing n with
  | nil => rfl
  | cons part rest ih =>
    rw [List.cons_append, numbered, numbered, ih, List.length_cons, List.cons_append, Nat.add_right_comm,
      Nat.add_assoc]

/-- The variables of a scan that has gone as far as the reading. -/
structure Scan.Holds (s : Scan) (hd : Nat) (t : Tally) : Prop where
  base : s.extLbaBase = t.base
  no : ∀ kind, s.no kind = (t.parts kind).length
  recorded : ∀ kind, s.recorded hd kind = numbered hd kind 0 (t.parts kind)

def Scan.filled (s : Scan) (hd : Nat) (kind : PartKind) (part : Part) : Scan :=
  { s with
    no := update s.no kind (s.no kind + 1)
    partitionList := s.partitionList ++ [part.place hd kind (s.no kind)] }

def Scan.follow (s : Scan) (start : Word) : Scan :=
  { s with extLbaBase := if s.extLbaBase = 0 then start else s.extLbaBase }

theorem recorded_filled {part : Part} : (s.filled hd kind part).recorded hd' kind' =
    s.recorded hd' kind' ++ if hd = hd' ∧ kind = kind' then [part.place hd kind (s.no kind)] else [] := by
  simp only [Scan.recorded, Scan.filled, List.filter_append, Part.place]
  congr 1
  by_cases same : hd = hd' ∧ kind = kind' <;> simp [same]

theorem Scan.Holds.filled (holds : s.Holds hd t) (kind : PartKind) (part : Part) :
    (s.filled hd kind part).Holds hd (t.add kind part) := by
  refine ⟨holds.base, fun kind' => ?_, fun kind' => ?_⟩ <;> by_cases same : kind' = kind
  · subst same
    simp [Scan.filled, Tally.add, holds.no]
  · simp [Scan.filled, Tally.add, same, holds.no]
  · subst same
    simp [recorded_filled, Tally.add, holds.recorded, holds.no, numbered_append, numbered]
  · simp [recorded_filled, Tally.add, same, Ne.symm same, holds.recorded]

theorem Scan.Holds.follow (holds : s.Holds hd t) (start : Word) :
    (s.follow start).Holds hd (t.follow start) :=
  ⟨by simp only [Scan.follow, Tally.follow, holds.base], holds.no, holds.recorded⟩

theorem recordPart_eq_ok {part : Part} {r : Unit × Scan} : recordPart hd kind part s = .ok r ↔
    s.no kind < kind.places ∧ r = ((), s.filled hd kind part) := by
  rw [recordPart, get_bind, require_bind_eq_ok]
  exact and_congr_right fun _ => ⟨fun run => (Except.ok.inj run).symm, fun same => same ▸ rfl⟩

theorem scanEntry_link {goes : Bool} (type : e.fsType = 5) : scanEntry scan hd lba e s = .ok (goes, u) ↔
    goes = true ∧ scan (e.startLba + s.extLbaBase) (s.follow e.startLba) = .ok ((), u) := by
  have follow : scanEntry scan hd lba e s =
      (scan (e.startLba + s.extLbaBase) >>= fun _ => pure true) (s.follow e.startLba) := by
    rw [scanEntry, if_pos type, get_bind]
    by_cases unset : s.extLbaBase = 0
    · have start : e.startLba + s.extLbaBase = e.startLba := by rw [unset]; exact BitVec.add_zero _
      rw [if_neg (not_not.mpr unset), modify_bind, Scan.follow, if_pos unset, start]
    · rw [if_pos unset, Scan.follow, if_neg unset]
  rw [follow, bind_eq_ok]
  constructor
  · rintro ⟨⟨⟩, v, run, last⟩
    cases last
    exact ⟨rfl, run⟩
  · rintro ⟨rfl, run⟩
    exact ⟨(), u, run, rfl⟩

theorem scanEntry_part {goes : Bool} (used : e.fsType ≠ 0) (type : e.fsType ≠ 5) :
    scanEntry scan hd lba e s = .ok (goes, u) ↔
      u = s.filled hd (kindAt lba) ⟨lba + e.startLba, e.secCnt⟩ ∧
      (goes = true ∧ s.no (kindAt lba) + 1 < (kindAt lba).places ∨
        goes = false ∧ kindAt lba = .logical ∧ s.no .logical = 7) := by
  have count (kind : PartKind) (part : Part) : (s.filled hd kind part).no kind = s.no kind + 1 := by
    simp [Scan.filled]
  rw [scanEntry, if_neg type, if_pos used]
  by_cases first : lba = 0
  · have primary : kindAt lba = .primary := if_pos first
    rw [if_pos first, primary, bind_eq_ok]
    constructor
    · rintro ⟨⟨⟩, v, record, run⟩
      obtain ⟨-, same⟩ := recordPart_eq_ok.mp record
      cases same
      rw [get_bind, require_bind_eq_ok, count] at run
      cases run.2
      exact ⟨rfl, .inl ⟨rfl, run.1⟩⟩
    · rintro ⟨rfl, ⟨rfl, room⟩ | ⟨-, other, -⟩⟩
      · refine ⟨(), _, recordPart_eq_ok.mpr ⟨Nat.lt_of_succ_lt room, rfl⟩, ?_⟩
        rw [get_bind, require_bind_eq_ok, count]
        exact ⟨room, rfl⟩
      · cases other
  · have logical : kindAt lba = .logical := if_neg first
    rw [if_neg first, logical, bind_eq_ok]
    constructor
    · rintro ⟨⟨⟩, v, record, run⟩
      obtain ⟨room, same⟩ := recordPart_eq_ok.mp record
      cases same
      rw [get_bind] at run
      cases run
      refine ⟨rfl, ?_⟩
      rw [count]
      by_cases more : s.no .logical + 1 < 8
      · exact .inl ⟨decide_eq_true more, more⟩
      · have places : s.no .logical < 8 := room
        exact .inr ⟨decide_eq_false more, rfl, by omega⟩
    · rintro ⟨rfl, ⟨rfl, room⟩ | ⟨rfl, -, seven⟩⟩
      · refine ⟨(), _, recordPart_eq_ok.mpr ⟨Nat.lt_of_succ_lt room, rfl⟩, ?_⟩
        rw [get_bind, count, decide_eq_true (show s.no .logical + 1 < 8 from room)]
        rfl
      · refine ⟨(), _, recordPart_eq_ok.mpr ⟨by rw [seven]; decide, rfl⟩, ?_⟩
        rw [get_bind, count, seven]
        rfl

theorem scanEntry_free (type : e.fsType = 0) : scanEntry scan hd lba e s = .ok (true, s) := by
  simp [scanEntry, type]

theorem reading_of_scan {fuel : Nat} (run : partitionScan disk hd fuel lba s = .ok ((), s'))
    (holds : s.Holds hd t) :
    lba.toNat ≤ maxLba ∧ ∃ t', Reading disk lba (partitionTable disk lba) t t' ∧ s'.Holds hd t' := by
  induction fuel generalizing lba s s' t with
  | zero => cases run
  | succ fuel ih =>
    obtain ⟨reach, loop⟩ := require_bind_eq_ok.mp run
    clear run
    refine ⟨reach, ?_⟩
    generalize partitionTable disk lba = es at loop ⊢
    induction es generalizing s t with
    | nil =>
      cases loop
      exact ⟨t, .nil, holds⟩
    | cons e rest ihRest =>
      obtain ⟨goes, u, entry, loop⟩ := bind_eq_ok.mp loop
      by_cases free : e.fsType = 0
      · cases (scanEntry_free free).symm.trans entry
        obtain ⟨t', reads, holds'⟩ := ihRest holds loop
        exact ⟨t', .free free reads, holds'⟩
      by_cases type : e.fsType = 5
      · obtain ⟨rfl, inner⟩ := (scanEntry_link type).mp entry
        rw [holds.base] at inner
        obtain ⟨reach', v, chain, between⟩ := ih inner (holds.follow e.startLba)
        obtain ⟨t', reads, holds'⟩ := ihRest between loop
        exact ⟨t', .link type reach' chain reads, holds'⟩
      · obtain ⟨rfl, ⟨rfl, room⟩ | ⟨rfl, kind, seven⟩⟩ := (scanEntry_part free type).mp entry
        · rw [holds.no] at room
          obtain ⟨t', reads, holds'⟩ := ihRest (holds.filled _ _) loop
          exact ⟨t', .part free type room reads, holds'⟩
        · cases loop
          rw [kind]
          exact ⟨_, .last free type kind (by rw [← holds.no, seven]), holds.filled _ _⟩

theorem Tally.add_logical (t : Tally) (part : Part) (parts : List Part) :
    { t.add .logical part with
      parts := update (t.add .logical part).parts .logical ((t.add .logical part).parts .logical ++ parts) } =
    { t with parts := update t.parts .logical (t.parts .logical ++ part :: parts) } := by
  simp [Tally.add]

theorem Logical.reading (logical : Logical disk base lba es parts) (set : base ≠ 0) : lba ≠ 0 →
    ∀ t : Tally, t.base = base → (t.parts .logical).length + parts.length ≤ 8 →
      Reading disk lba es t { t with parts := update t.parts .logical (t.parts .logical ++ parts) } := by
  induction logical with
  | nil =>
    intro _ t _ _
    simpa using Reading.nil
  | free type others ih => exact fun other t same few => .free type (ih other t same few)
  | @part lba e rest parts used type others ih =>
    intro other t same few
    have kind : kindAt lba = .logical := if_neg other
    rw [List.length_cons] at few
    by_cases more : (t.parts .logical).length + 1 < 8
    · refine .part used type (by rw [kind]; exact more) ?_
      rw [kind, ← Tally.add_logical]
      exact ih other _ same (by simp [Tally.add]; omega)
    · -- the last place was filled, and there is nothing left to record
      obtain rfl : parts = [] := List.eq_nil_of_length_eq_zero (by omega)
      exact .last used type kind (by omega)
  | @link lba e rest next parts type nonzero reach chain others ihChain ih =>
    intro other t same few
    rw [List.length_append] at few
    have kept : t.follow e.startLba = t := by rw [Tally.follow, if_neg (same ▸ set)]
    have there : e.startLba + t.base = base + e.startLba := by rw [same, BitVec.add_comm]
    have first := ihChain nonzero t same (by omega)
    have second := ih other { t with parts := update t.parts .logical (t.parts .logical ++ next) } same
      (by simp; omega)
    refine .link type (there ▸ reach) (by rw [kept, there]; exact first) ?_
    simpa using second

theorem links_cons : links (e :: rest) = if e.fsType = 5 then e :: links rest else links rest := by
  simp only [links, List.filter_cons, decide_eq_true_eq]

theorem Reading.few (reads : Reading disk lba es t t') (few : (t.parts .primary).length < 4) :
    (t'.parts .primary).length < 4 := by
  induction reads with
  | nil => exact few
  | free type others ih => exact ih few
  | @part lba e rest t t' used type room others ih =>
    refine ih ?_
    by_cases first : lba = 0
    · rw [kindAt, if_pos first] at room ⊢
      simpa [Tally.add, PartKind.places] using room
    · rw [kindAt, if_neg first]
      simpa [Tally.add] using few
  | last used type kind eighth => simpa [Tally.add] using few
  | link type reach chain others ihChain ih => exact ih (ihChain few)

theorem Reading.base_eq (reads : Reading disk lba es t t') : t.base ≠ 0 → t'.base = t.base := by
  induction reads with
  | nil => exact fun _ => rfl
  | free type others ih => exact ih
  | part used type room others ih => exact ih
  | last used type kind eighth => exact fun _ => rfl
  | @link lba e rest t u t' type reach chain others ihChain ih =>
    intro set
    have kept : (t.follow e.startLba).base = t.base := if_neg set
    have between : u.base = t.base := (ihChain (kept ▸ set)).trans kept
    exact (ih (between ▸ set)).trans between

/-- The base that a reading leaves, when it was not set before, is the start of the first link. -/
theorem Reading.base_of_links (reads : Reading disk lba es t t') :
    t.base = 0 → (∀ e ∈ links es, e.startLba ≠ 0) →
    kindAt lba = .primary → t'.base = ((links es).head?.map TableEntry.startLba).getD 0 := by
  induction reads with
  | nil => exact fun unset _ _ => unset
  | @free lba e rest t t' type others ih =>
    intro unset starts first
    rw [links_cons, if_neg (by rw [type]; decide)] at starts ⊢
    exact ih unset starts first
  | part used type room others ih =>
    intro unset starts first
    rw [links_cons, if_neg type] at starts ⊢
    exact ih unset starts first
  | last used type kind eighth => exact fun _ _ first => nomatch kind.symm.trans first
  | @link lba e rest t u t' type reach chain others ihChain ih =>
    intro unset starts _
    rw [links_cons, if_pos type] at starts ⊢
    have follow : (t.follow e.startLba).base = e.startLba := if_pos unset
    have set := starts e List.mem_cons_self
    have between : u.base = e.startLba := (chain.base_eq (by rwa [follow])).trans follow
    exact (others.base_eq (between ▸ set)).trans between

/-- What the scan keeps: all that filling a place keeps, and setting a base that was not set. -/
theorem partitionScan_keeps {R : Scan → Scan → Prop} (fill : ∀ kind part, (recordPart hd kind part).Keeps R)
    (set : ∀ s start, s.extLbaBase = 0 → R s { s with extLbaBase := start }) (fuel : Nat) (lba : Word) :
    (partitionScan disk hd fuel lba).Keeps R := by
  induction fuel generalizing lba with
  | zero => exact .stop _
  | succ fuel ih =>
    refine .bind (.check _ _) fun _ => ?_
    induction partitionTable disk lba with
    | nil => exact .ret ()
    | cons e rest ihRest =>
      refine .bind (.ite ?_ (.ite (.ite ?_ ?_) (.ret true))) fun goes => .ite ihRest (.ret ())
      · refine .read fun s =>
          Prog.within_ite (fun _ => (Prog.Keeps.bind (ih _) fun _ => .ret true).within s) fun unset => ?_
        refine Prog.within_bind (Prog.within_modify (set s _ (not_not.mp unset))) fun _ t => ?_
        exact (Prog.Keeps.bind (ih _) fun _ => .ret true).within t
      · exact .bind (fill _ _) fun _ => .bind .look fun s => .bind (.check _ _) fun _ => .ret true
      · exact .bind (fill _ _) fun _ => .bind .look fun s => .ret _

theorem partitionScan_others {fuel : Nat} (run : partitionScan disk hd fuel lba s = .ok ((), s')) (kind : PartKind)
    (other : hd' ≠ hd) :
    s'.recorded hd' kind = s.recorded hd' kind := by
  have keeps : (partitionScan disk hd fuel lba).Keeps fun s s' => s'.recorded hd' kind = s.recorded hd' kind := by
    refine partitionScan_keeps (fun kind' part => ?_) (fun _ _ _ => rfl) fuel lba
    refine .bind .look fun s => .bind (.check _ _) fun _ => .change fun s => ?_
    change (s.filled hd kind' part).recorded hd' kind = _
    rw [recorded_filled, if_neg (fun same => other same.1.symm), List.append_nil]
  exact (keeps.within s).run (fun _ => rfl) (fun _ _ _ first second => second.trans first) run

end Reading

/-! ### All disks -/

section Disks

variable {disks : Nat → Memory} {logicals : Nat → List Part} {n fuel : Nat} {s s' : Scan}

def extendedStart (disk : Memory) : Word := ((links (partitionTable disk 0)).head?.map TableEntry.startLba).getD 0

/-- The base that the scan of a channel starts with: the start of the first extended partition on the
disks scanned before. -/
def baseBefore (disks : Nat → Memory) : Nat → Word
  | 0 => 0
  | n + 1 => if baseBefore disks n ≠ 0 then baseBefore disks n else extendedStart (disks (scannedDisk n))

/-- The variables when the disks of the first `n` channels were scanned as their tables say. -/
structure DisksScanned (disks : Nat → Memory) (logicals : Nat → List Part) (n : Nat) (s : Scan) : Prop where
  base : s.extLbaBase = baseBefore disks n
  zero : ∀ kind, s.no kind = 0
  fresh : ∀ k, n ≤ k → ∀ kind, s.recorded (scannedDisk k) kind = []
  records : ∀ k, k < n → Records s (scannedDisk k) (disks (scannedDisk k)) (logicals (scannedDisk k))

theorem scannedDisk_ne {j k : Nat} (other : j ≠ k) : scannedDisk j ≠ scannedDisk k := by
  unfold scannedDisk
  omega

theorem DisksScanned.start : DisksScanned disks logicals 0 (Scan.start 0) :=
  ⟨rfl, fun _ => rfl, fun _ _ _ => rfl, fun k below => absurd below (Nat.not_lt_zero k)⟩

theorem DisksScanned.holds (sofar : DisksScanned disks logicals n s) :
    s.Holds (scannedDisk n) (Tally.start (baseBefore disks n)) :=
  ⟨sofar.base, sofar.zero, sofar.fresh n (Nat.le_refl n)⟩

theorem DisksScanned.next (sofar : DisksScanned disks logicals n s)
    (well : WellFormed (disks (scannedDisk n)) (logicals (scannedDisk n)))
    (run : partitionScan (disks (scannedDisk n)) (scannedDisk n) fuel 0 s = .ok ((), s'))
    (records : Records s' (scannedDisk n) (disks (scannedDisk n)) (logicals (scannedDisk n))) :
    DisksScanned disks logicals (n + 1) { s' with no := fun _ => 0 } := by
  refine ⟨?_, fun _ => rfl, fun k later kind => ?_, fun k earlier => ?_⟩
  · obtain ⟨-, t, reads, holds⟩ := reading_of_scan run sofar.holds
    change s'.extLbaBase = _
    rw [baseBefore, holds.base]
    by_cases unset : baseBefore disks n = 0
    · rw [if_neg (not_not.mpr unset)]
      exact reads.base_of_links unset (fun e mem => (well.chain e mem).1) rfl
    · rw [if_pos unset]
      exact reads.base_eq unset
  · exact (partitionScan_others run kind (scannedDisk_ne (by omega))).trans (sofar.fresh k (by omega) kind)
  · by_cases last : k = n
    · subst last
      exact records
    · have kept (kind : PartKind) := partitionScan_others run kind (scannedDisk_ne last)
      have before := sofar.records k (by omega)
      exact ⟨(kept .primary).trans before.1, (kept .logical).trans before.2⟩

end Disks

end LaiMiniOs
