import MiniLevelDb.Db.LogRecovery

/-!
# Reading from an initial offset

A reader with an initial offset begins in the block `SkipToInitialBlock` leads
to, passes over the physical records that start before the offset, and returns
the records that start at or after it. What it meets of an entry that starts
before the offset is given up on without finding a record, but not always without
a report.
-/

namespace MiniLevelDb.Log

open Writer

/-! ## Layouts -/

/-- Every physical record starts where a header fits. -/
theorem layout_room {offset : Nat} {fragments : List Fragment} {placed : Nat × Fragment}
    (member : placed ∈ layout offset fragments) : kHeaderSize ≤ room placed.1 := by
  induction fragments generalizing offset with
  | nil => cases member
  | cons fragment later ih =>
      rcases List.mem_cons.mp member with rfl | member
      · exact kHeaderSize_le_room_nextStart offset
      · exact ih member

/-- The physical records after the first one of a layout start after it. -/
theorem lt_of_mem_layout_tail {offset : Nat} {fragment : Fragment} {later : List Fragment}
    {placed : Nat × Fragment}
    (member : placed ∈ layout (nextStart offset + fragment.size) later) :
    nextStart offset < placed.1 := by
  have := le_of_mem_layout member
  have := fragment.size_pos
  omega

/-- The physical records of a layout start one after the other. -/
theorem layout_increasing (offset : Nat) (fragments : List Fragment) :
    (layout offset fragments).Pairwise fun left right => left.1 < right.1 :=
  (layout_pairwise offset fragments).imp fun {left _} after =>
    Nat.lt_of_lt_of_le (Nat.lt_add_of_pos_right left.2.size_pos) after

/-- The physical record goes on with a record, or ends it. -/
def Fragment.Continues (fragment : Fragment) : Prop :=
  fragment.type = .middle ∨ fragment.type = .last

namespace Cuts

variable {offset : Nat} {begins : Bool} {data : Slice} {fragments : List Fragment}

/-- Only the first physical record of a cut begins the record. -/
theorem continues (cut : Cuts offset begins data fragments) {placed : Nat × Fragment}
    (member : placed ∈ layout offset fragments)
    (later : begins = false ∨ nextStart offset < placed.1) : placed.2.Continues := by
  induction cut with
  | @ends offset begins data fits =>
      rw [List.mem_singleton.mp member] at later ⊢
      rcases later with rfl | absurd
      · exact .inr rfl
      · exact absurd.false.elim
  | @goesOn offset begins data rest fragments fills cut ih =>
      rcases List.mem_cons.mp member with rfl | member
      · rcases later with rfl | absurd
        · exact .inl rfl
        · exact absurd.false.elim
      · exact ih member (.inl rfl)

/-- From an offset after the first physical record on, a cut is nothing or again
a cut of the end of the record. -/
theorem suffix (cut : Cuts offset begins data fragments) {bound : Nat}
    (after : nextStart offset < bound) :
    ((layout offset fragments).filter fun placed => bound ≤ placed.1) = [] ∨
      ∃ laterOffset rest laterFragments, Cuts laterOffset false rest laterFragments ∧
        ((layout offset fragments).filter fun placed => bound ≤ placed.1) =
          layout laterOffset laterFragments := by
  induction cut with
  | @ends offset begins data fits =>
      left
      rw [layout, List.filter_cons_of_neg (by simpa using after)]
      rfl
  | @goesOn offset begins data rest fragments fills cut ih =>
      rw [layout, List.filter_cons_of_neg (by simpa using after)]
      by_cases further : nextStart (nextStart offset + (kHeaderSize + data.length)) < bound
      · exact ih further
      · right
        refine ⟨_, _, _, cut, List.filter_eq_self.mpr fun placed member => ?_⟩
        rw [decide_eq_true_eq]
        exact (Nat.le_of_not_lt further).trans (nextStart_le_of_mem_layout member)

/-- The physical records of a cut leave nothing out. -/
theorem covers (cut : Cuts offset begins data fragments) {place : Nat}
    (after : nextStart offset ≤ place) (before : place < endOffset offset fragments) :
    ∃ placed ∈ layout offset fragments,
      placed.1 ≤ place ∧ place < placed.1 + placed.2.size := by
  induction cut with
  | ends fits => exact ⟨_, List.mem_cons_self, after, before⟩
  | @goesOn offset begins data rest fragments fills cut ih =>
      have filled := mod_add_room (nextStart offset)
      rw [← fills] at filled
      have next := nextStart_eq_self filled
      by_cases here : place < nextStart offset + (kHeaderSize + data.length)
      · exact ⟨_, List.mem_cons_self, after, here⟩
      · obtain ⟨placed, member, inside⟩ := ih (by rw [next]; omega) before
        exact ⟨placed, List.mem_cons_of_mem _ member, inside⟩

theorem head_mem (cut : Cuts offset begins data fragments) :
    ∃ placed ∈ layout offset fragments, placed.1 = nextStart offset := by
  cases cut with
  | ends fits => exact ⟨_, List.mem_cons_self, rfl⟩
  | goesOn fills rest => exact ⟨_, List.mem_cons_self, rfl⟩

/-- A block boundary inside a record is the start of one of its physical
records. -/
theorem boundary (cut : Cuts offset begins data fragments) {boundary : Nat}
    (aligned : boundary % kBlockSize = 0) (after : nextStart offset < boundary)
    (before : boundary < endOffset offset fragments) :
    ∃ placed ∈ layout offset fragments, placed.1 = boundary := by
  induction cut with
  | @ends offset begins data fits =>
      have := add_room_le aligned after
      simp only [endOffset, Fragment.size] at before
      omega
  | @goesOn offset begins data rest fragments fills cut ih =>
      have reached := add_room_le aligned after
      have filled := mod_add_room (nextStart offset)
      rw [← fills] at reached filled
      have next := nextStart_eq_self filled
      obtain ⟨placed, member, start⟩ : ∃ placed ∈
          layout (nextStart offset + (kHeaderSize + data.length)) fragments,
            placed.1 = boundary := by
        by_cases here : boundary = nextStart offset + (kHeaderSize + data.length)
        · obtain ⟨placed, member, start⟩ := cut.head_mem
          exact ⟨placed, member, by rw [start, next, here]⟩
        · exact ih (by rw [next]; omega) before
      exact ⟨placed, List.mem_cons_of_mem _ member, start⟩

end Cuts

/-- Physical records after the first one start a block. -/
theorem Cuts.aligned {offset : Nat} {begins : Bool} {data : Slice} {fragments : List Fragment}
    (cut : Cuts offset begins data fragments) {placed : Nat × Fragment}
    (member : placed ∈ layout offset fragments) (later : nextStart offset < placed.1) :
    placed.1 % kBlockSize = 0 := by
  induction cut with
  | @ends offset begins data fits =>
      rw [List.mem_singleton.mp member] at later
      exact later.false.elim
  | @goesOn offset begins data rest fragments fills cut ih =>
      have filled := mod_add_room (nextStart offset)
      rw [← fills] at filled
      have next := nextStart_eq_self filled
      rcases List.mem_cons.mp member with rfl | member
      · exact later.false.elim
      · have after := nextStart_le_of_mem_layout member
        rcases Nat.eq_or_lt_of_le after with same | after
        · rw [← same]
          exact next.symm ▸ filled
        · exact ih member after

/-- Every block that a log reaches into begins with a physical record. -/
theorem layout_boundary {boundary : Nat} (aligned : boundary % kBlockSize = 0)
    {fragments : List Fragment} {offset : Nat} (fits : Fits offset fragments)
    (after : nextStart offset ≤ boundary) (before : boundary < endOffset offset fragments) :
    ∃ placed ∈ layout offset fragments, placed.1 = boundary := by
  induction fragments generalizing offset with
  | nil => exact absurd before (Nat.not_lt_of_le ((le_nextStart offset).trans after))
  | cons fragment later ih =>
      rcases Nat.eq_or_lt_of_le after with rfl | passed
      · exact ⟨_, List.mem_cons_self, rfl⟩
      · have ends : nextStart offset + fragment.size ≤ boundary :=
          (Nat.add_le_add_left fits.1 _).trans (add_room_le aligned passed)
        have reached : nextStart (nextStart offset + fragment.size) ≤ boundary := by
          apply Nat.le_of_not_lt
          intro beyond
          have moved := nextStart_boundary aligned ends (Nat.le_of_lt beyond)
          rw [nextStart_eq_self aligned] at moved
          omega
        obtain ⟨placed, member, start⟩ := ih fits.2 reached before
        exact ⟨placed, List.mem_cons_of_mem _ member, start⟩

/-! ## What the reader meets -/

namespace Assembly

variable {assembly : Assembly} {payload : Slice} {start : Nat}

/-- No record is under way. -/
def Idle (assembly : Assembly) : Prop :=
  assembly.inFragmentedRecord = false

theorem idle_fresh (resyncing : Bool) : (fresh resyncing).Idle := rfl

/-- Between records a physical record that is passed over ends the
resynchronisation. -/
theorem decision_bad (idle : assembly.Idle) (stop : Nat) (drop : Option Drop) :
    (Event.bad stop drop).decision assembly =
      (none, .again { assembly with resyncing := false }) := by
  obtain ⟨resyncing, fragmented, prospective, scratch⟩ := assembly
  cases idle
  cases resyncing <;> rfl

/-- Between records the end of a record is reported, unless the reader is
resynchronising. -/
theorem decision_stray {fragment : Fragment} (continues : fragment.Continues)
    (idle : assembly.Idle) (synchronised : assembly.resyncing = false) (start : Nat) :
    ∃ reason, (Fragment.found (start, fragment)).decision assembly =
      (some (fragment.payload.length, reason), .again assembly) := by
  obtain ⟨resyncing, fragmented, prospective, scratch⟩ := assembly
  obtain ⟨type, payload⟩ := fragment
  cases idle
  cases synchronised
  rcases continues with type | type
  · cases type
    exact ⟨_, rfl⟩
  · cases type
    exact ⟨_, rfl⟩

/-- While resynchronising it is passed over in silence. -/
theorem decision_suppressed {fragment : Fragment} (continues : fragment.Continues)
    (resyncs : assembly.resyncing = true) (start : Nat) :
    (Fragment.found (start, fragment)).decision assembly =
      (none, .again { assembly with resyncing := fragment.type == .middle }) := by
  obtain ⟨resyncing, fragmented, prospective, scratch⟩ := assembly
  obtain ⟨type, payload⟩ := fragment
  cases resyncs
  rcases continues with type | type
  · cases type
    rfl
  · cases type
    rfl

end Assembly

section

variable (config : ReaderConfig)

/-- The physical record starts before the initial offset. -/
def Fragment.Before (placed : Nat × Fragment) : Prop :=
  BitVec.ofNat 64 placed.1 < config.initialOffset

theorem before_iff {placed : Nat × Fragment} (inside : placed.1 < 2 ^ 64) :
    Fragment.Before config placed ↔ placed.1 < config.initialOffset.toNat := by
  rw [Fragment.Before, BitVec.lt_def, BitVec.toNat_ofNat, Nat.mod_eq_of_lt inside]

theorem event_of_before {placed : Nat × Fragment} (before : Fragment.Before config placed) :
    Fragment.event config placed = .bad (placed.1 + placed.2.size) none :=
  if_pos before

/-- Physical records before the initial offset are passed over; the first of them
ends the resynchronisation. -/
theorem assemble_before {placed : List (Nat × Fragment)} (later : List Event)
    (before : ∀ single ∈ placed, Fragment.Before config single) :
    ∀ {assembly : Assembly}, assembly.Idle →
      assemble config assembly (placed.map (Fragment.event config) ++ later) =
        assemble config { assembly with resyncing := assembly.resyncing && placed.isEmpty }
          later := by
  induction placed with
  | nil =>
      intro assembly _
      rw [List.isEmpty_nil, Bool.and_true]
      rfl
  | cons single rest ih =>
      intro assembly idle
      rw [List.forall_mem_cons] at before
      have onward := @ih before.2 { assembly with resyncing := false } idle
      simp only [List.map_cons, List.cons_append, assemble, event_of_before config before.1,
        Assembly.decision_bad idle, onward, List.isEmpty_cons, Bool.and_false, Bool.false_and]
      rfl

/-- The end of a record is passed over in silence while resynchronising, up to its
last physical record. -/
theorem assemble_suppressed {offset : Nat} {data : Slice} {fragments : List Fragment}
    {begins : Bool} (cut : Cuts offset begins data fragments) (later : List Event) :
    ∀ {assembly : Assembly}, begins = false → assembly.resyncing = true →
      assemble config assembly ((layout offset fragments).map Fragment.found ++ later) =
        assemble config { assembly with resyncing := false } later := by
  induction cut with
  | @ends offset begins data fits =>
      intro assembly notFirst resyncs
      subst notFirst
      have decided := @Assembly.decision_suppressed assembly ⟨.last, data⟩ (.inr rfl) resyncs
        (nextStart offset)
      change (Fragment.found (nextStart offset, ⟨fragmentType false true, data⟩)).decision
        assembly = _ at decided
      simp only [layout, List.map_cons, List.map_nil, List.cons_append, List.nil_append, assemble,
        decided]
      rfl
  | @goesOn offset begins data rest fragments fills cut ih =>
      intro assembly notFirst resyncs
      subst notFirst
      have decided := @Assembly.decision_suppressed assembly ⟨.middle, data⟩ (.inl rfl) resyncs
        (nextStart offset)
      change (Fragment.found (nextStart offset, ⟨fragmentType false false, data⟩)).decision
        assembly = _ at decided
      have onward := @ih { assembly with resyncing := true } rfl rfl
      simp only [layout, List.map_cons, List.cons_append, assemble, decided, Fragment.size]
      exact Prod.ext (congrArg Prod.fst onward) (congrArg Prod.snd onward)

/-- Between records, physical records that start before the initial offset or go
on with a record are passed over without finding one. -/
theorem assemble_stray {placed : List (Nat × Fragment)} (later : List Event)
    (stray : ∀ single ∈ placed, Fragment.Before config single ∨ single.2.Continues) :
    ∀ {assembly : Assembly}, assembly.Idle →
      ∃ next reports, next.Idle ∧
        assemble config assembly (placed.map (Fragment.event config) ++ later) =
          ((assemble config next later).1, reports ++ (assemble config next later).2) := by
  induction placed with
  | nil =>
      intro assembly idle
      exact ⟨assembly, [], idle, rfl⟩
  | cons single rest ih =>
      intro assembly idle
      rw [List.forall_mem_cons] at stray
      obtain ⟨drop, next, nextIdle, decided⟩ : ∃ drop next, next.Idle ∧
          (Fragment.event config single).decision assembly = (drop, .again next) := by
        by_cases before : Fragment.Before config single
        · rw [event_of_before config before]
          exact ⟨_, { assembly with resyncing := false }, idle, Assembly.decision_bad idle _ _⟩
        · rw [Fragment.event_eq_found before]
          have continues := stray.1.resolve_left before
          cases resyncs : assembly.resyncing with
          | true =>
              exact ⟨_, { assembly with resyncing := single.2.type == .middle }, idle,
                Assembly.decision_suppressed continues resyncs _⟩
          | false =>
              obtain ⟨reason, decided⟩ := Assembly.decision_stray continues idle resyncs single.1
              exact ⟨_, assembly, idle, decided⟩
      obtain ⟨last, reports, lastIdle, assembled⟩ := ih stray.2 nextIdle
      refine ⟨last, (Fragment.event config single).reports config ++
        config.report (Fragment.event config single).stop drop ++ reports, lastIdle, ?_⟩
      simp only [List.map_cons, List.cons_append, assemble, decided, assembled, List.append_assoc]

/-- The reporter hears of the end of a record that starts at or after the initial
offset. -/
theorem report_stray {placed : Nat × Fragment} (reason : String) (heard : config.reporter = true)
    (wanted : ¬ Fragment.Before config placed) (inside : placed.1 + placed.2.size < 2 ^ 64) :
    config.report (placed.1 + placed.2.size) (some (placed.2.payload.length, reason)) =
      [(placed.2.payload.length, .corruption reason)] := by
  rw [ReaderConfig.report, if_pos]
  refine ⟨heard, ?_⟩
  have start : BitVec.ofNat 64 (placed.1 + placed.2.size) -
      BitVec.ofNat 64 placed.2.payload.length = BitVec.ofNat 64 (placed.1 + kHeaderSize) := by
    rw [Fragment.size, ← Nat.add_assoc, BitVec.ofNat_add (placed.1 + kHeaderSize),
      BitVec.add_sub_cancel]
  rw [start, ge_iff_le, BitVec.le_def, BitVec.toNat_ofNat]
  unfold Fragment.size at inside
  rw [before_iff config (by omega)] at wanted
  rw [Nat.mod_eq_of_lt (by omega)]
  omega

/-- Between records, without resynchronisation, the end of a record is reported. -/
theorem assemble_stray_reports {placed : List (Nat × Fragment)} (later : List Event)
    (heard : config.reporter = true)
    (stray : ∀ single ∈ placed, Fragment.Before config single ∨ single.2.Continues)
    (inside : ∀ single ∈ placed, single.1 + single.2.size < 2 ^ 64)
    (wanted : ∃ single ∈ placed, ¬ Fragment.Before config single) :
    ∀ {assembly : Assembly}, assembly.Idle → assembly.resyncing = false →
      (assemble config assembly (placed.map (Fragment.event config) ++ later)).2 ≠ [] := by
  induction placed with
  | nil =>
      obtain ⟨_, absurd, _⟩ := wanted
      cases absurd
  | cons single rest ih =>
      intro assembly idle synchronised
      rw [List.forall_mem_cons] at stray inside
      by_cases before : Fragment.Before config single
      · obtain ⟨other, member, found⟩ := wanted
        have further : other ∈ rest := by
          rcases List.mem_cons.mp member with rfl | further
          · exact absurd before found
          · exact further
        have onward := @ih stray.2 inside.2 ⟨other, further, found⟩
          { assembly with resyncing := false } idle rfl
        simp only [List.map_cons, List.cons_append, assemble, event_of_before config before,
          Assembly.decision_bad idle]
        exact onward
      · obtain ⟨reason, decided⟩ := Assembly.decision_stray (stray.1.resolve_left before) idle
          synchronised single.1
        have reported := report_stray config reason heard before inside.1
        have stop : (Fragment.found single).stop = single.1 + single.2.size := rfl
        simp only [List.map_cons, List.cons_append, assemble, Fragment.event_eq_found before,
          decided, stop, reported]
        simp

/-! ## Entries -/

/-- The file offset of the block the reader begins with. -/
def location : Nat :=
  (Reader.blockStartLocation config.initialOffset).toNat

/-- No physical record at or after the initial offset is skipped. -/
theorem location_le {start : Nat} (header : kHeaderSize ≤ room start) (inside : start < 2 ^ 64)
    (wanted : config.initialOffset.toNat ≤ start) : location config ≤ start := by
  rw [location, Reader.toNat_blockStartLocation]
  unfold room kHeaderSize kBlockSize at *
  split <;> omega

/-- The physical records of an entry from the initial block on. -/
def Entry.met (entry : Entry) : List (Nat × Fragment) :=
  entry.placed.filter fun placed => location config ≤ placed.1

/-- What a reader meets of a log. -/
theorem scan_location {entries : List Entry} (chained : Chained 0 entries) :
    scan config (location config)
        ((encodeFrom 0 (fragmentsOf entries)).drop (location config)) =
      entries.flatMap fun entry => (entry.met config).map (Fragment.event config) := by
  have aligned : location config % kBlockSize = 0 := by
    have := Reader.space_blockStartLocation config.initialOffset
    unfold location space kBlockSize at *
    omega
  obtain ⟨later, fits, sublist, bytes, placed⟩ :=
    encodeFrom_drop aligned (Nat.zero_le _) chained.fits
  have typed : ∀ fragment ∈ later, fragment.Typed :=
    fun fragment member => chained.typed fragment (sublist.subset member)
  rw [Nat.sub_zero] at bytes
  rw [bytes, scan_encodeFrom config typed fits, placed, chained.layout, List.filter_flatMap,
    List.map_flatMap]
  rfl

section

variable {entry : Entry} (inside : entry.stop < 2 ^ 64)

include inside

theorem Entry.inside_of_mem {placed : Nat × Fragment} (member : placed ∈ entry.placed) :
    placed.1 + placed.2.size < 2 ^ 64 :=
  Nat.lt_of_le_of_lt (layout_stop_le member) inside

/-- An entry from the initial offset on is met in full. -/
theorem Entry.met_of_wanted (wanted : config.initialOffset.toNat ≤ entry.start) :
    (entry.met config).map (Fragment.event config) = entry.placed.map Fragment.found := by
  have starts : ∀ placed ∈ entry.placed, config.initialOffset.toNat ≤ placed.1 ∧
      placed.1 < 2 ^ 64 := by
    intro placed member
    have := Entry.inside_of_mem inside member
    have := nextStart_le_of_mem_layout member
    unfold Entry.start at wanted
    omega
  have all : entry.met config = entry.placed := by
    apply List.filter_eq_self.mpr
    intro placed member
    exact decide_eq_true
      (location_le config (layout_room member) (starts placed member).2 (starts placed member).1)
  rw [all]
  apply List.map_congr_left
  intro placed member
  apply Fragment.event_eq_found
  intro before
  obtain ⟨wanted, bounded⟩ := starts placed member
  exact Nat.not_lt_of_le wanted ((before_iff config bounded).mp before)

/-- What is met of an entry before the initial offset begins no record. -/
theorem Entry.met_stray (early : entry.start < config.initialOffset.toNat) :
    ∀ placed ∈ entry.met config, Fragment.Before config placed ∨ placed.2.Continues := by
  intro placed member
  have member := (List.mem_filter.mp member).1
  have := Entry.inside_of_mem inside member
  by_cases first : nextStart entry.offset < placed.1
  · exact .inr (entry.cut.continues member (.inr first))
  · left
    rw [before_iff config (by omega)]
    unfold Entry.start at early
    omega

end

/-- From any state between records, a reader returns the records that start at or
after the initial offset, with their file offsets. -/
theorem assemble_met {entries : List Entry} (inside : ∀ entry ∈ entries, entry.stop < 2 ^ 64) :
    ∀ {assembly : Assembly}, assembly.Idle →
      (assemble config assembly
          (entries.flatMap fun entry => (entry.met config).map (Fragment.event config))).1 =
        (entries.filter (config.initialOffset.toNat ≤ ·.start)).map
          fun entry => (entry.record, BitVec.ofNat 64 entry.start) := by
  induction entries with
  | nil =>
      intro assembly _
      rfl
  | cons entry later ih =>
      intro assembly idle
      rw [List.forall_mem_cons] at inside
      rw [List.flatMap_cons]
      by_cases wanted : config.initialOffset.toNat ≤ entry.start
      · rw [Entry.met_of_wanted config inside.1 wanted]
        obtain ⟨reports, _, assembled⟩ := assemble_cuts config entry.cut
          (later.flatMap fun entry => (entry.met config).map (Fragment.event config)) assembly
          assembly.ready_true
        have onward := @ih inside.2 (.fresh false) rfl
        rw [Entry.placed, assembled, List.filter_cons, if_pos (decide_eq_true wanted),
          List.map_cons]
        exact congrArg _ onward
      · obtain ⟨next, reports, nextIdle, assembled⟩ := assemble_stray config
          (later.flatMap fun entry => (entry.met config).map (Fragment.event config))
          (Entry.met_stray config inside.1 (Nat.lt_of_not_le wanted)) idle
        rw [assembled, List.filter_cons, if_neg (by simpa using wanted)]
        exact ih inside.2 nextIdle

/-- Every entry of a chain ends by the end of the chain. -/
theorem Chained.stop_le {offset : Nat} {entries : List Entry} {entry : Entry}
    (chained : Chained offset entries) (member : entry ∈ entries) :
    entry.stop ≤ endOffset offset (fragmentsOf entries) := by
  induction entries generalizing offset with
  | nil => cases member
  | cons first later ih =>
      obtain ⟨rfl, rest⟩ := chained
      rw [fragmentsOf_cons, endOffset_append]
      rcases List.mem_cons.mp member with rfl | member
      · exact le_endOffset _ _
      · exact ih rest member

/-- The records a reader returns over a whole log. -/
theorem readAll_log (pastEnd : Status) {entries : List Entry} (chained : Chained 0 entries)
    (inside : endOffset 0 (fragmentsOf entries) < 2 ^ 64) :
    let read := (Reader.new (toRead (encodeFrom 0 (fragmentsOf entries)) pastEnd) config).readAll
    read.1 = ((entries.filter (config.initialOffset.toNat ≤ ·.start)).map
        fun entry => (entry.record, BitVec.ofNat 64 entry.start)) ∧
      read.2.reports = (assemble config (.fresh (decide (0 < config.initialOffset)))
        (entries.flatMap fun entry => (entry.met config).map (Fragment.event config))).2 := by
  obtain ⟨records, reports, _⟩ :=
    Reader.readAll_new (toRead (encodeFrom 0 (fragmentsOf entries)) pastEnd) config rfl
  have met := scan_location config chained
  rw [location] at met
  rw [toRead, met] at records reports
  refine ⟨records.trans ?_, reports⟩
  exact assemble_met config
    (fun entry member => Nat.lt_of_le_of_lt (chained.stop_le member) inside) rfl

/-- Entries from the initial offset on are read in silence. -/
theorem silent_of_wanted {entries : List Entry} (inside : ∀ entry ∈ entries, entry.stop < 2 ^ 64)
    (wanted : ∀ entry ∈ entries, config.initialOffset.toNat ≤ entry.start) :
    ∀ {assembly : Assembly}, assembly.Idle →
      (assemble config assembly
        (entries.flatMap fun entry => (entry.met config).map (Fragment.event config))).2 = [] := by
  induction entries with
  | nil =>
      intro assembly _
      rfl
  | cons entry later ih =>
      intro assembly idle
      rw [List.forall_mem_cons] at inside wanted
      rw [List.flatMap_cons, Entry.met_of_wanted config inside.1 wanted.1]
      obtain ⟨reports, silent, assembled⟩ := assemble_cuts config entry.cut
        (later.flatMap fun entry => (entry.met config).map (Fragment.event config)) assembly
        assembly.ready_true
      rw [Entry.placed, assembled, silent (.inr idle), List.nil_append]
      exact ih inside.2 wanted.2 rfl

/-- A reader that begins after the start of an entry passes over the rest of it in
silence. -/
theorem silent_of_resyncing {entry : Entry} {later : List Entry}
    (inside : ∀ other ∈ entry :: later, other.stop < 2 ^ 64)
    (wanted : ∀ other ∈ later, config.initialOffset.toNat ≤ other.start)
    (early : entry.start < config.initialOffset.toNat)
    (after : ∀ placed ∈ entry.met config, config.initialOffset.toNat ≤ placed.1)
    {assembly : Assembly} (idle : assembly.Idle) (resyncs : assembly.resyncing = true) :
    (assemble config assembly ((entry :: later).flatMap
        fun entry => (entry.met config).map (Fragment.event config))).2 = [] := by
  rw [List.forall_mem_cons] at inside
  rw [List.flatMap_cons]
  have skipped : nextStart entry.offset < location config := by
    apply Nat.lt_of_not_le
    intro reached
    obtain ⟨placed, member, start⟩ := entry.cut.head_mem
    have := after placed (List.mem_filter.mpr ⟨member, decide_eq_true (by omega)⟩)
    unfold Entry.start at early
    omega
  have found : (entry.met config).map (Fragment.event config) =
      (entry.met config).map Fragment.found := by
    apply List.map_congr_left
    intro placed member
    have := Entry.inside_of_mem inside.1 (List.mem_filter.mp member).1
    have := after placed member
    apply Fragment.event_eq_found
    intro before
    have := (before_iff config (by omega)).mp before
    omega
  rcases entry.cut.suffix skipped with none_ | ⟨offset, data, fragments, cut, rest⟩
  · have nothing : entry.met config = [] := none_
    rw [nothing]
    exact silent_of_wanted config inside.2 wanted idle
  · have same : entry.met config = layout offset fragments := rest
    rw [found, same, assemble_suppressed config cut _ rfl resyncs]
    exact silent_of_wanted config inside.2 wanted idle

/-- Any other reader reports the rest of the entry. -/
theorem reports_of_divided {entry : Entry} {later : List Event} (heard : config.reporter = true)
    (inside : entry.stop < 2 ^ 64) (early : entry.start < config.initialOffset.toNat)
    (divided : ∃ placed ∈ entry.placed, config.initialOffset.toNat ≤ placed.1)
    {assembly : Assembly} (idle : assembly.Idle)
    (begun : ¬ (assembly.resyncing = true ∧
      ∀ placed ∈ entry.met config, config.initialOffset.toNat ≤ placed.1)) :
    (assemble config assembly
      ((entry.met config).map (Fragment.event config) ++ later)).2 ≠ [] := by
  have bounds : ∀ placed ∈ entry.met config, placed.1 + placed.2.size < 2 ^ 64 :=
    fun placed member => Entry.inside_of_mem inside (List.mem_filter.mp member).1
  have stray := Entry.met_stray config inside early
  obtain ⟨last, lastPlaced, lastWanted⟩ := divided
  have lastBound := Entry.inside_of_mem inside lastPlaced
  have lastMet : last ∈ entry.met config := by
    refine List.mem_filter.mpr ⟨lastPlaced, decide_eq_true ?_⟩
    exact location_le config (layout_room lastPlaced) (by omega) lastWanted
  have lastFound : ¬ Fragment.Before config last := by
    rw [before_iff config (by omega)]
    omega
  cases resyncs : assembly.resyncing with
  | false =>
      exact assemble_stray_reports config later heard stray bounds ⟨last, lastMet, lastFound⟩ idle
        resyncs
  | true =>
      -- the first physical record met starts before the offset, and ends the resynchronisation
      obtain ⟨early, earlyMet, earlyBefore⟩ : ∃ placed ∈ entry.met config,
          placed.1 < config.initialOffset.toNat := by
        by_contra none_
        refine begun ⟨resyncs, fun placed member => Nat.le_of_not_lt fun before => none_ ?_⟩
        exact ⟨placed, member, before⟩
      have order : (entry.met config).Pairwise fun left right => left.1 < right.1 :=
        (layout_increasing _ _).sublist List.filter_sublist
      cases met : entry.met config with
      | nil =>
          rw [met] at lastMet
          cases lastMet
      | cons first rest =>
          rw [met] at stray bounds lastMet earlyMet order
          rw [List.pairwise_cons] at order
          have firstBefore : first.1 < config.initialOffset.toNat := by
            rcases List.mem_cons.mp earlyMet with rfl | further
            · exact earlyBefore
            · exact (order.1 early further).trans earlyBefore
          have lastLater : last ∈ rest := by
            rcases List.mem_cons.mp lastMet with rfl | further
            · omega
            · exact further
          rw [List.forall_mem_cons] at stray bounds
          have single := @assemble_before config [first]
            (rest.map (Fragment.event config) ++ later)
            (List.forall_mem_singleton.mpr ((before_iff config (by omega)).mpr firstBefore))
            assembly idle
          have same : (first :: rest).map (Fragment.event config) ++ later =
              [first].map (Fragment.event config) ++ (rest.map (Fragment.event config) ++ later) :=
            rfl
          rw [same, single]
          exact assemble_stray_reports config later heard stray.2 bounds.2
            ⟨last, lastLater, lastFound⟩ idle (Bool.and_false _)

/-- When a reader reports nothing: no entry is divided by the initial offset, or
the reader resynchronises and begins to read after the offset. -/
theorem silent_iff {entries : List Entry} (heard : config.reporter = true)
    (inside : ∀ entry ∈ entries, entry.stop < 2 ^ 64) :
    ∀ {offset : Nat} {assembly : Assembly}, Chained offset entries → assembly.Idle →
      ((assemble config assembly
          (entries.flatMap fun entry => (entry.met config).map (Fragment.event config))).2 = [] ↔
        (∀ entry ∈ entries, entry.start < config.initialOffset.toNat →
            ∀ placed ∈ entry.placed, placed.1 < config.initialOffset.toNat) ∨
          (assembly.resyncing = true ∧ ∀ entry ∈ entries, ∀ placed ∈ entry.met config,
            config.initialOffset.toNat ≤ placed.1)) := by
  induction entries with
  | nil =>
      intro offset assembly _ _
      exact iff_of_true rfl (.inl fun _ absurd => by cases absurd)
  | cons entry later ih =>
      intro offset assembly chained idle
      obtain ⟨_, rest⟩ := chained
      have ordered : ∀ other ∈ later, entry.stop ≤ other.start :=
        fun other member => (rest.le_offset member).trans (le_nextStart _)
      have bounds := List.forall_mem_cons.mp inside
      by_cases wanted : config.initialOffset.toNat ≤ entry.start
      · have all : ∀ other ∈ entry :: later, config.initialOffset.toNat ≤ other.start := by
          intro other member
          rcases List.mem_cons.mp member with rfl | member
          · exact wanted
          · exact wanted.trans ((Nat.le_of_lt entry.start_lt_stop).trans (ordered other member))
        refine iff_of_true (silent_of_wanted config inside all idle) (.inl ?_)
        intro other member early
        exact absurd early (Nat.not_lt_of_le (all other member))
      · have early : entry.start < config.initialOffset.toNat := Nat.lt_of_not_le wanted
        by_cases divided : ∃ placed ∈ entry.placed, config.initialOffset.toNat ≤ placed.1
        · obtain ⟨last, lastPlaced, lastWanted⟩ := divided
          have laterWanted : ∀ other ∈ later, config.initialOffset.toNat ≤ other.start := by
            intro other member
            have stop : last.1 + last.2.size ≤ entry.stop := layout_stop_le lastPlaced
            have := ordered other member
            omega
          by_cases after : assembly.resyncing = true ∧
              ∀ placed ∈ entry.met config, config.initialOffset.toNat ≤ placed.1
          · refine iff_of_true
              (silent_of_resyncing config inside laterWanted early after.2 idle after.1)
              (.inr ⟨after.1, List.forall_mem_cons.mpr ⟨after.2, ?_⟩⟩)
            intro other member placed met
            exact (laterWanted other member).trans
              (nextStart_le_of_mem_layout (List.mem_filter.mp met).1)
          · refine iff_of_false ?_ ?_
            · rw [List.flatMap_cons]
              exact reports_of_divided config heard bounds.1 early
                ⟨last, lastPlaced, lastWanted⟩ idle after
            · rintro (whole | ⟨resyncs, begun⟩)
              · have := whole entry List.mem_cons_self early last lastPlaced
                omega
              · exact after ⟨resyncs, begun entry List.mem_cons_self⟩
        · have before : ∀ placed ∈ entry.placed, placed.1 < config.initialOffset.toNat :=
            fun placed member => Nat.lt_of_not_le fun reached => divided ⟨placed, member, reached⟩
          have passed : ∀ placed ∈ entry.met config, Fragment.Before config placed := by
            intro placed member
            have member := (List.mem_filter.mp member).1
            have := Entry.inside_of_mem bounds.1 member
            exact (before_iff config (by omega)).mpr (before placed member)
          have onward := @ih bounds.2 _ { assembly with
            resyncing := assembly.resyncing && (entry.met config).isEmpty } rest idle
          rw [List.flatMap_cons, assemble_before config _ passed idle, onward]
          simp only [List.forall_mem_cons, Bool.and_eq_true, List.isEmpty_iff]
          have nothing : entry.met config = [] ↔
              ∀ placed ∈ entry.met config, config.initialOffset.toNat ≤ placed.1 := by
            constructor
            · intro empty placed member
              rw [empty] at member
              cases member
            · intro reached
              apply List.eq_nil_iff_forall_not_mem.mpr
              intro placed member
              have := reached placed member
              have := before placed (List.mem_filter.mp member).1
              omega
          rw [nothing, and_assoc]
          exact or_congr_left ⟨fun whole => ⟨fun _ => before, whole⟩, fun whole => whole.2⟩

end

/-- Reading from an initial offset. Whatever the sessions a log was written in and
whatever the offset, a reader returns exactly the records that start at or after
it, in order, and tells where each one starts. The file is shorter than a 64-bit
number tells. -/
theorem readAll_from_initialOffset (sessions : List (List Slice)) (config : ReaderConfig)
    (pastEnd : Status)
    (inside : (writeSessions emptyFile sessions).2.contents.length < 2 ^ 64) :
    let log := writeSessions emptyFile sessions
    let read := (Reader.new (toRead log.2.contents pastEnd) config).readAll
    (read.1.map fun found => (found.1, found.2.toNat)) =
      (log.1.filter (config.initialOffset.toNat ≤ ·.start)).map
        fun call => (call.record, call.start) := by
  intro log read
  obtain ⟨entries, adds⟩ := writeSessions_adds sessions emptyFile rfl
  have chained : Chained 0 entries := adds.chained
  have contents : log.2.contents = encodeFrom 0 (fragmentsOf entries) := adds.contents
  have length : log.2.contents.length = endOffset 0 (fragmentsOf entries) := adds.length
  rw [length] at inside
  have calls : log.1 = entries.map Entry.call := adds.calls
  have records := (readAll_log config pastEnd chained inside).1
  rw [← contents] at records
  simp only [read]
  rw [records, calls, List.filter_map, List.map_map, List.map_map]
  apply List.map_congr_left
  intro entry member
  have stop := chained.stop_le (List.mem_filter.mp member).1
  have start := entry.start_lt_stop
  rw [Function.comp_apply, BitVec.toNat_ofNat, Nat.mod_eq_of_lt (by omega)]
  rfl

/-- From an offset inside of the first of two records, only the second one is returned. -/
theorem readAll_from_initialOffset_inside :
    let log := writeSessions emptyFile [[[0x61#8], [0x62#8]]]
    log.2.contents.length < 2 ^ 64 ∧
      ((Reader.new (toRead log.2.contents .ok) ⟨true, true, 3⟩).readAll.1.map
        fun found => (found.1, found.2.toNat)) = [([0x62#8], 8)] := by
  intro log
  obtain ⟨entries, adds, records⟩ := writeSessions_entries [[0x61#8], [0x62#8]]
  obtain ⟨first, rest, rfl, one, records⟩ := List.map_eq_cons_iff.mp records
  obtain ⟨second, rfl, two⟩ := List.map_eq_singleton_iff.mp records
  obtain ⟨offset, next, -⟩ := adds.chained
  have start : first.call.start = 0 := by
    rw [Call.start, show first.call.before = 0 from offset]
    decide
  have stop : first.stop = 8 := by
    have short := first.stop_of_short
    rw [one, show first.start = 0 from start] at short
    exact short (by decide)
  have later : second.call.start = 8 := by
    rw [Call.start, show second.call.before = 8 from next.trans stop]
    decide
  have ends : second.stop = 16 := by
    have short := second.stop_of_short
    rw [two, show second.start = 8 from later] at short
    exact short (by decide)
  have inside : log.2.contents.length < 2 ^ 64 := by
    rw [adds.length, adds.chained.endOffset_cons, ← next, endOffset_single, ends]
    decide
  refine ⟨inside, ?_⟩
  have wanted : [first.call, second.call].filter
      (fun call => decide ((3#64).toNat ≤ call.start)) = [second.call] := by
    rw [List.filter_cons, start, List.filter_cons, later]
    rfl
  rw [readAll_from_initialOffset [[[0x61#8], [0x62#8]]] ⟨true, true, 3⟩ .ok inside, adds.calls]
  refine (congrArg (List.map _) wanted).trans ?_
  rw [List.map_singleton, later, show second.call.record = [0x62#8] from two]

/-! ## False alarms -/

section

variable {config : ReaderConfig} {entries : List Entry}

/-- Beginning at a block boundary, or in the trailer the reader skips, no physical
record before the offset is met. -/
theorem met_after_offset (inside : ∀ entry ∈ entries, entry.stop < 2 ^ 64)
    (aligned : config.initialOffset.toNat % kBlockSize = 0 ∨
      kBlockSize - 6 < config.initialOffset.toNat % kBlockSize) :
    (∀ entry ∈ entries, ∀ placed ∈ entry.placed,
        placed.1 < config.initialOffset.toNat) ∨
      ∀ entry ∈ entries, ∀ placed ∈ entry.met config,
        config.initialOffset.toNat ≤ placed.1 := by
  by_cases wraps : location config < config.initialOffset.toNat
  · left
    intro entry member placed inEntry
    have bound := Entry.inside_of_mem (inside entry member) inEntry
    have header := layout_room inEntry
    rw [location, Reader.toNat_blockStartLocation] at wraps
    have := config.initialOffset.isLt
    unfold room kHeaderSize kBlockSize at *
    split at wraps <;> omega
  · right
    intro entry member placed met
    have := of_decide_eq_true (List.mem_filter.mp met).2
    omega

/-- Only a record that reaches beyond the next block boundary is divided. -/
theorem divided_iff {entry : Entry} (early : entry.start < config.initialOffset.toNat)
    (unaligned : config.initialOffset.toNat % kBlockSize ≠ 0) :
    (∀ placed ∈ entry.placed, placed.1 < config.initialOffset.toNat) ↔
      entry.stop ≤ config.initialOffset.toNat - config.initialOffset.toNat % kBlockSize +
        kBlockSize := by
  have next : (config.initialOffset.toNat - config.initialOffset.toNat % kBlockSize + kBlockSize) %
      kBlockSize = 0 := by
    unfold kBlockSize
    omega
  have beyond : config.initialOffset.toNat < config.initialOffset.toNat -
      config.initialOffset.toNat % kBlockSize + kBlockSize := by
    unfold kBlockSize
    omega
  constructor
  · intro before
    apply Nat.le_of_not_lt
    intro reaches
    obtain ⟨placed, member, start⟩ := entry.cut.boundary next (early.trans beyond) reaches
    have := before placed member
    omega
  · intro ends placed member
    apply Nat.lt_of_not_le
    intro reached
    have aligned := entry.cut.aligned member (Nat.lt_of_lt_of_le early reached)
    have stop : placed.1 + placed.2.size ≤ entry.stop := layout_stop_le member
    have := placed.2.size_pos
    unfold kBlockSize at *
    omega

/-- Exactly when a reader reports nothing over an intact log. -/
theorem readAll_silent_iff (pastEnd : Status) (heard : config.reporter = true)
    (chained : Chained 0 entries) (inside : endOffset 0 (fragmentsOf entries) < 2 ^ 64)
    (within : config.initialOffset.toNat ≤ endOffset 0 (fragmentsOf entries)) :
    (Reader.new (toRead (encodeFrom 0 (fragmentsOf entries)) pastEnd) config).readAll.2.reports =
        [] ↔
      config.initialOffset.toNat % kBlockSize = 0 ∨
        kBlockSize - 6 < config.initialOffset.toNat % kBlockSize ∨
        ∀ entry ∈ entries, entry.start < config.initialOffset.toNat →
          entry.stop ≤ config.initialOffset.toNat - config.initialOffset.toNat % kBlockSize +
            kBlockSize := by
  have bounds : ∀ entry ∈ entries, entry.stop < 2 ^ 64 :=
    fun entry member => Nat.lt_of_le_of_lt (chained.stop_le member) inside
  rw [(readAll_log config pastEnd chained inside).2, silent_iff config heard bounds chained
    (Assembly.idle_fresh _)]
  by_cases aligned : config.initialOffset.toNat % kBlockSize = 0 ∨
      kBlockSize - 6 < config.initialOffset.toNat % kBlockSize
  · have right : config.initialOffset.toNat % kBlockSize = 0 ∨
        kBlockSize - 6 < config.initialOffset.toNat % kBlockSize ∨
          ∀ entry ∈ entries, entry.start < config.initialOffset.toNat →
            entry.stop ≤ config.initialOffset.toNat -
              config.initialOffset.toNat % kBlockSize + kBlockSize :=
      aligned.imp_right .inl
    refine iff_of_true ?_ right
    rcases met_after_offset bounds aligned with before | after
    · exact .inl fun entry member _ => before entry member
    · by_cases zero : config.initialOffset.toNat = 0
      · left
        intro entry _ early
        omega
      · refine .inr ⟨decide_eq_true ?_, after⟩
        rw [BitVec.lt_def]
        exact Nat.pos_of_ne_zero zero
  · rw [not_or] at aligned
    have floor := Nat.mod_le config.initialOffset.toNat kBlockSize
    have begun : ¬ ∀ entry ∈ entries, ∀ placed ∈ entry.met config,
        config.initialOffset.toNat ≤ placed.1 := by
      intro after
      have start : location config = config.initialOffset.toNat -
          config.initialOffset.toNat % kBlockSize := by
        rw [location, Reader.toNat_blockStartLocation, if_neg aligned.2]
      have block : location config % kBlockSize = 0 := by
        rw [start]
        unfold kBlockSize
        omega
      obtain ⟨placed, member, here⟩ := layout_boundary block chained.fits (Nat.zero_le _) (by omega)
      rw [chained.layout] at member
      obtain ⟨entry, inEntries, inEntry⟩ := List.mem_flatMap.mp member
      have := after entry inEntries placed
        (List.mem_filter.mpr ⟨inEntry, decide_eq_true (Nat.le_of_eq here.symm)⟩)
      omega
    constructor
    · rintro (whole | ⟨_, after⟩)
      · refine .inr (.inr fun entry member early => ?_)
        exact (divided_iff early aligned.1).mp (whole entry member early)
      · exact absurd after begun
    · rintro (zero | trailer | whole)
      · exact absurd zero aligned.1
      · exact absurd trailer aligned.2
      · left
        intro entry member early
        exact (divided_iff early aligned.1).mpr (whole entry member early)

end

/-- No false alarms: over an intact log, reading from an offset inside the file
reports nothing exactly when the offset is a block boundary, lies in the part of a
trailer the reader skips, or no record that starts before the offset reaches
beyond the next block boundary. -/
theorem readAll_silent_from_initialOffset (sessions : List (List Slice)) (checksum : Bool)
    (initialOffset : BitVec 64) (pastEnd : Status)
    (inside : (writeSessions emptyFile sessions).2.contents.length < 2 ^ 64)
    (within : initialOffset.toNat ≤ (writeSessions emptyFile sessions).2.contents.length) :
    let log := writeSessions emptyFile sessions
    let read := (Reader.new (toRead log.2.contents pastEnd)
      ⟨true, checksum, initialOffset⟩).readAll
    read.2.reports = [] ↔
      initialOffset.toNat % kBlockSize = 0 ∨ kBlockSize - 6 < initialOffset.toNat % kBlockSize ∨
        ∀ call ∈ log.1, call.start < initialOffset.toNat →
          call.after ≤ initialOffset.toNat - initialOffset.toNat % kBlockSize + kBlockSize := by
  intro log read
  obtain ⟨entries, adds⟩ := writeSessions_adds sessions emptyFile rfl
  have chained : Chained 0 entries := adds.chained
  have contents : log.2.contents = encodeFrom 0 (fragmentsOf entries) := adds.contents
  have length : log.2.contents.length = endOffset 0 (fragmentsOf entries) := adds.length
  have calls : log.1 = entries.map Entry.call := adds.calls
  rw [length] at inside within
  have silent := @readAll_silent_iff ⟨true, checksum, initialOffset⟩ entries pastEnd rfl chained
    inside within
  rw [← contents] at silent
  rw [calls, List.forall_mem_map]
  exact silent

/-- One byte into a record that ends in its block, the reader passes over it in
silence. -/
theorem readAll_silent_inside_short_record :
    (writeSessions emptyFile [[[0x61#8]]]).2.contents.length < 2 ^ 64 ∧
      (1#64).toNat ≤ (writeSessions emptyFile [[[0x61#8]]]).2.contents.length ∧
      (Reader.new (toRead (writeSessions emptyFile [[[0x61#8]]]).2.contents .ok)
        ⟨true, true, 1#64⟩).readAll.2.reports = [] := by
  obtain ⟨entry, adds, _, offset, least, most⟩ := writeSessions_single [0x61#8]
  have length := adds.length
  rw [show emptyFile.contents.length = entry.offset from offset.symm, endOffset_single] at length
  have inside : (writeSessions emptyFile [[[0x61#8]]]).2.contents.length < 2 ^ 64 :=
    length ▸ Nat.lt_of_le_of_lt most (by decide)
  have within : (1#64).toNat ≤ (writeSessions emptyFile [[[0x61#8]]]).2.contents.length :=
    length ▸ least
  refine ⟨inside, within, ?_⟩
  apply (readAll_silent_from_initialOffset [[[0x61#8]]] true 1#64 .ok inside within).mpr
  refine .inr (.inr fun call member _ => ?_)
  rw [adds.calls] at member
  rw [List.mem_singleton.mp member]
  exact most.trans (by decide)

/-- One byte into a record that goes on in the next block, the reader passes over
the first physical record, which ends the resynchronisation, and reports the
second. -/
theorem readAll_alarms_inside_long_record :
    ¬ ∀ (sessions : List (List Slice)) (initialOffset : BitVec 64),
      (writeSessions emptyFile sessions).2.contents.length < 2 ^ 64 →
      initialOffset.toNat ≤ (writeSessions emptyFile sessions).2.contents.length →
      (Reader.new (toRead (writeSessions emptyFile sessions).2.contents .ok)
        ⟨true, true, initialOffset⟩).readAll.2.reports = [] := by
  intro silent
  obtain ⟨entry, adds, _, offset, least, most⟩ :=
    writeSessions_single (List.replicate 40000 0)
  rw [List.length_replicate] at least most
  have first : emptyFile.contents.length = entry.offset := offset.symm
  have length := adds.length
  rw [first, endOffset_single] at length
  have inside : entry.stop < 2 ^ 64 := Nat.lt_of_le_of_lt most (by decide)
  have within : (1#64).toNat ≤ entry.stop := Nat.le_trans (by decide) least
  have quiet := silent [[List.replicate 40000 0]] 1#64 (length ▸ inside) (length ▸ within)
  rw [adds.contents, show emptyFile.contents = [] from rfl, List.nil_append] at quiet
  have whole : endOffset 0 (fragmentsOf [entry]) = entry.stop := by
    rw [← endOffset_single, offset]
  rcases (@readAll_silent_iff ⟨true, true, 1#64⟩ [entry] .ok rfl adds.chained
    (whole ▸ inside) (whole ▸ within)).mp quiet with boundary | trailer | ends
  · exact absurd boundary (by decide)
  · exact absurd trailer (by decide)
  · have start : entry.start = 0 := by
      rw [Entry.start, offset]
      decide
    have stop := ends entry List.mem_cons_self (by rw [start]; decide)
    exact absurd (least.trans stop) (by decide)

end MiniLevelDb.Log
