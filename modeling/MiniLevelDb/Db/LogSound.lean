import MiniLevelDb.Db.LogRecovery

/-!
# Soundness of the reader

Over arbitrary bytes, every record a reader returns is put together from physical
records that really are in the file, follow each other immediately in the
reader's scan, and have the right checksums; no physical record is used twice.
-/

namespace MiniLevelDb.Log

/-! ## Physical records in the file -/

/-- A physical record lies in the file, inside one block, at or after the initial
offset. Its bytes hold the masked checksum of its type and payload. -/
structure Stored (contents : Slice) (initialOffset : BitVec 64) (placed : Nat × Fragment) :
    Prop where
  bytes : (contents.drop placed.1).take placed.2.size = placed.2.bytes
  inside : placed.2.size ≤ room placed.1
  wanted : initialOffset.toNat ≤ placed.1

/-- A type is known by the value the reader switches on. -/
theorem signExtend_injective {left right : Byte}
    (same : left.signExtend 32 = right.signExtend 32) : left = right := by
  have low : ∀ byte : Byte, (byte.signExtend 32).setWidth 8 = byte := by
    intro byte
    ext bit inside
    simp only [BitVec.getElem_setWidth, BitVec.getLsbD_signExtend]
    grind
  rw [← low left, ← low right, same]

/-- The two bytes of a length. -/
theorem length_bytes_eq (low high : Byte) (length : Nat)
    (stored : length = low.toNat ||| (high.toNat <<< 8)) :
    BitVec.ofNat 8 (length &&& 0xff) = low ∧ BitVec.ofNat 8 (length >>> 8) = high := by
  have sum : length = 2 ^ 8 * high.toNat + low.toNat := by
    rw [stored, Nat.or_comm, Nat.shiftLeft_eq, Nat.mul_comm,
      Nat.two_pow_add_eq_or_of_lt low.isLt]
  have := low.isLt
  have := high.isLt
  constructor
  · apply BitVec.eq_of_toNat_eq
    rw [BitVec.toNat_ofNat, show 0xff = 2 ^ 8 - 1 from rfl, Nat.and_two_pow_sub_one_eq_mod]
    omega
  · apply BitVec.eq_of_toNat_eq
    rw [BitVec.toNat_ofNat, Nat.shiftRight_eq_div_pow]
    omega

theorem header_cases {buffer : Slice} (enough : kHeaderSize ≤ buffer.length) :
    ∃ a b c d low high kind rest,
      buffer = a :: b :: c :: d :: low :: high :: kind :: rest := by
  match buffer, enough with
  | a :: b :: c :: d :: low :: high :: kind :: rest, _ =>
      exact ⟨a, b, c, d, low, high, kind, rest, rfl⟩
  | [], enough | [_], enough | [_, _], enough | [_, _, _], enough | [_, _, _, _], enough
  | [_, _, _, _, _], enough | [_, _, _, _, _, _], enough =>
      simp [kHeaderSize] at enough

/-- A header that passes the checks of `ReadPhysicalRecord` is the header of the
physical record that is returned. -/
theorem bytes_of_checksumMatches {buffer : Slice} {type : RecordType}
    (long : kHeaderSize + Reader.headerLength buffer ≤ buffer.length)
    (typed : Reader.headerType buffer = type.code)
    (matches_ : Reader.checksumMatches buffer = true) :
    buffer.take (kHeaderSize + Reader.headerLength buffer) =
      (⟨type, (buffer.drop kHeaderSize).take (Reader.headerLength buffer)⟩ : Fragment).bytes := by
  obtain ⟨a, b, c, d, low, high, kind, rest, rfl⟩ :=
    header_cases ((Nat.le_add_right _ _).trans long)
  generalize stored : Reader.headerLength (a :: b :: c :: d :: low :: high :: kind :: rest) =
    length at long matches_ ⊢
  have kindByte : kind = type.toByte := signExtend_injective typed
  have lengthBytes := length_bytes_eq low high length stored.symm
  have payload : ((a :: b :: c :: d :: low :: high :: kind :: rest).drop kHeaderSize).take length =
      rest.take length := rfl
  have taken : (rest.take length).length = length := by
    rw [List.length_take]
    simp only [List.length_cons] at long
    unfold kHeaderSize at long
    omega
  have covered : ((a :: b :: c :: d :: low :: high :: kind :: rest).drop 6).take (1 + length) =
      kind :: rest.take length := by
    rw [Nat.add_comm]
    rfl
  have checksum : Crc32c.mask (Crc32c.value (kind :: rest.take length)) =
      decodeFixed32 (a :: b :: c :: d :: low :: high :: kind :: rest) := by
    simp only [Reader.checksumMatches, stored, covered, beq_iff_eq] at matches_
    rw [matches_, Crc32c.mask_unmask]
  rw [payload, Fragment.bytes, Fragment.header]
  simp only [taken, lengthBytes, ← kindByte, checksum, encodeFixed32_decodeFixed32]
  rw [Nat.add_comm]
  rfl

/-- A physical record is returned with its own offset. -/
theorem parseAt_start {config : ReaderConfig} {offset : Nat} {data : Slice} {type : BitVec 32}
    {payload : Slice} {start : Nat}
    (parsed : parseAt config offset data = some (.record type payload start)) : start = offset := by
  unfold parseAt at parsed
  dsimp only at parsed
  repeat' split at parsed
  all_goals cases parsed
  rfl

/-- What it takes for the scan to return a physical record. -/
theorem parseAt_record {config : ReaderConfig} {offset : Nat} {data : Slice} {type : BitVec 32}
    {payload : Slice} {start : Nat} (checks : config.checksum = true)
    (parsed : parseAt config offset data = some (.record type payload start)) :
    ∀ known : RecordType, type = known.code →
      data.take (⟨known, payload⟩ : Fragment).size = (⟨known, payload⟩ : Fragment).bytes ∧
        (⟨known, payload⟩ : Fragment).size ≤ room offset := by
  unfold parseAt at parsed
  dsimp only at parsed
  split at parsed
  · cases parsed
  split at parsed
  · split at parsed <;> cases parsed
  rename_i short
  split at parsed
  · cases parsed
  split at parsed
  · cases parsed
  rename_i mismatch
  split at parsed
  · cases parsed
  cases parsed
  intro known typed
  have long := Nat.le_of_not_lt short
  have passed : Reader.checksumMatches (data.take (room offset)) = true := by
    rw [checks, Bool.true_and] at mismatch
    simpa using mismatch
  have bytes := bytes_of_checksumMatches long typed passed
  have size : (⟨known, ((data.take (room offset)).drop kHeaderSize).take
      (Reader.headerLength (data.take (room offset)))⟩ : Fragment).size =
        kHeaderSize + Reader.headerLength (data.take (room offset)) := by
    rw [Fragment.size, List.length_take, List.length_drop]
    omega
  have fits : kHeaderSize + Reader.headerLength (data.take (room offset)) ≤ room offset :=
    long.trans (List.length_take_le _ _)
  rw [size, ← bytes, List.take_take, Nat.min_eq_left fits]
  exact ⟨rfl, fits⟩

variable {config : ReaderConfig}

/-- The physical records a scan returns are stored in the file. -/
theorem scan_stored {contents : Slice} (checks : config.checksum = true)
    (bounded : contents.length < 2 ^ 64) (offset : Nat) :
    ∀ (known : RecordType) (payload : Slice) (start : Nat),
      .record known.code payload start ∈ scan config offset (contents.drop offset) →
      Stored contents config.initialOffset (start, ⟨known, payload⟩) := by
  generalize ahead : contents.drop offset = data
  induction offset, data using scan.induct config with
  | case1 offset data parsed =>
      rw [scan_of_none parsed]
      intro _ _ _ member
      cases member
  | case2 offset data event parsed ih =>
      rw [scan_of_some parsed]
      intro known payload start member
      have bounds := parseAt_stop parsed
      rcases List.mem_cons.mp member with rfl | later
      · obtain ⟨bytes, fits⟩ := parseAt_record checks parsed known rfl
        obtain rfl := parseAt_start parsed
        rw [← ahead, drop_padding] at bytes
        have wanted := parseAt_fromInitial parsed
        have length := congrArg List.length bytes
        rw [List.length_take, List.length_drop, Fragment.length_bytes] at length
        have positive := (⟨known, payload⟩ : Fragment).size_pos
        refine ⟨bytes, fits, ?_⟩
        rw [Event.FromInitial, BitVec.not_lt, BitVec.le_def, BitVec.toNat_ofNat,
          Nat.mod_eq_of_lt (by omega)] at wanted
        exact wanted
      · refine ih ?_ known payload start later
        rw [← ahead, List.drop_drop]
        congr 1
        unfold nextStart at bounds
        omega

/-- A scan returns physical records in the order of their offsets. -/
theorem scan_pairwise (offset : Nat) (data : Slice) :
    (∀ type payload start, .record type payload start ∈ scan config offset data → offset ≤ start) ∧
      (scan config offset data).Pairwise fun left right =>
        ∀ type payload start, right = .record type payload start → left.stop ≤ start := by
  induction offset, data using scan.induct config with
  | case1 offset data parsed =>
      rw [scan_of_none parsed]
      exact ⟨fun _ _ _ absurd => (by cases absurd), List.Pairwise.nil⟩
  | case2 offset data event parsed ih =>
      rw [scan_of_some parsed]
      have bounds := parseAt_stop parsed
      refine ⟨?_, List.pairwise_cons.mpr ⟨?_, ih.2⟩⟩
      · intro type payload start member
        rcases List.mem_cons.mp member with rfl | later
        · rw [parseAt_start parsed]
          exact le_nextStart offset
        · have := ih.1 type payload start later
          unfold nextStart at bounds
          omega
      · rintro _ member type payload start rfl
        exact ih.1 type payload start member

/-! ## The reader's scan -/

/-- What a `ReadPhysicalRecord` call returns: a physical record with its offset as
`ReadRecord` computes it, or `kBadRecord`. -/
inductive Outcome where
  | record (type : BitVec 32) (payload : Slice) (offset : BitVec 64)
  | rejected

/-- The outcomes of `ReadPhysicalRecord` calls, one after the other, up to the
first `kEof`. -/
def Reader.outcomes (reader : Reader) : List Outcome :=
  if _ended : (reader.readPhysicalRecord []).1 = kEof then []
  else
    let read := reader.readPhysicalRecord []
    (if read.1 = kBadRecord then .rejected
      else .record read.1 read.2.1 (read.2.2.physicalRecordOffset read.2.1)) ::
      outcomes (reader.readPhysicalRecord []).2.2
termination_by reader.remaining
decreasing_by exact remaining_readPhysicalRecord_lt [] _ended

/-- The outcomes from where the first `ReadRecord` call begins to read. -/
def Reader.scanned (reader : Reader) : List Outcome :=
  if reader.lastRecordOffset < reader.config.initialOffset then
    if reader.skipToInitialBlock.1 then reader.skipToInitialBlock.2.outcomes else []
  else
    reader.outcomes

/-- The outcome that an event of a scan stands for. -/
def Event.outcome : Event → Outcome
  | .record type payload start =>
      if type = kBadRecord then .rejected else .record type payload (BitVec.ofNat 64 start)
  | .bad _ _ => .rejected

theorem Event.outcome_cases (event : Event) :
    event.outcome = .rejected ∨ ∃ type payload start, event = .record type payload start ∧
      event.outcome = .record type payload (BitVec.ofNat 64 start) := by
  cases event with
  | record type payload start =>
      by_cases bad : type = kBadRecord
      · exact .inl (if_pos bad)
      · exact .inr ⟨type, payload, start, rfl, if_neg bad⟩
  | bad stop drop => exact .inl rfl

/-- The events before one that reads like the end of the file. -/
def untilEof (events : List Event) : List Event :=
  events.takeWhile fun event => event.type ≠ kEof

theorem untilEof_cons {event : Event} (later : List Event) (open_ : event.type ≠ kEof) :
    untilEof (event :: later) = event :: untilEof later :=
  List.takeWhile_cons_of_pos (decide_eq_true open_)

theorem untilEof_cons_of_eof {event : Event} (later : List Event) (ended : event.type = kEof) :
    untilEof (event :: later) = [] :=
  List.takeWhile_cons_of_neg (by simpa using ended)

/-- The outcomes of a reader are the events it meets. -/
theorem Reader.outcomes_of_sees (events : List Event) :
    ∀ reader : Reader, reader.Sees events →
      reader.outcomes = (untilEof events).map Event.outcome := by
  induction events with
  | nil =>
      intro reader sees
      rw [outcomes, dif_pos (readPhysicalRecord_of_sees_nil [] sees).1]
      rfl
  | cons event later ih =>
      intro reader sees
      cases event with
      | record type payload start =>
          obtain ⟨after, read, _, ahead, position⟩ := readPhysicalRecord_of_sees_record [] sees
          by_cases ended : (Event.record type payload start).type = kEof
          · rw [outcomes, dif_pos (by rw [read]; exact ended), untilEof_cons_of_eof later ended]
            rfl
          · rw [outcomes, dif_neg (by rw [read]; exact ended), untilEof_cons later ended]
            simp only [read, ih after ahead, physicalRecordOffset_of_position position]
            rfl
      | bad stop drop =>
          obtain ⟨after, bad, read, _, ahead, _⟩ := readPhysicalRecord_of_sees_bad [] sees
          have open_ : (Event.bad stop drop).type ≠ kEof := (by decide : kBadRecord ≠ kEof)
          rw [outcomes, dif_neg (by rw [bad]; exact open_), untilEof_cons later open_]
          simp only [bad, read, ih _ (ahead.reportIfAny drop), ↓reduceIte]
          rfl

/-- The outcomes from where a fresh reader begins to read. -/
theorem Reader.scanned_new (file : SequentialFile) (config : ReaderConfig)
    (sound : file.outcomes = []) :
    let location := (blockStartLocation config.initialOffset).toNat
    (new file config).scanned =
      (untilEof (scan config location (file.rest.drop location))).map Event.outcome := by
  intro location
  by_cases skips : 0 < config.initialOffset
  · have scanned : (new file config).scanned = if (new file config).skipToInitialBlock.1 then
        (new file config).skipToInitialBlock.2.outcomes else [] := if_pos skips
    rw [scanned]
    obtain ⟨_, ⟨passed, same, stands⟩ | ⟨failed, nothing⟩⟩ :=
      skipToInitialBlock_new file config sound skips
    · rw [if_pos passed]
      exact outcomes_of_sees _ _ ⟨_, _, stands, by rw [same]⟩
    · rw [if_neg (by rw [failed]; decide)]
      change [] = (untilEof (scan config location
        (file.rest.drop (blockStartLocation config.initialOffset).toNat))).map Event.outcome
      rw [nothing, scan_nil]
      rfl
  · have zero : config.initialOffset = 0 := by bv_omega
    have start : location = 0 := by
      simp only [location, zero]
      decide
    have scanned : (new file config).scanned = (new file config).outcomes := if_neg skips
    rw [scanned]
    refine outcomes_of_sees _ _ ⟨location, _, ?_, rfl⟩
    rw [start]
    exact ⟨sound, rfl, rfl, rfl, rfl⟩

/-! ## Runs of physical records -/

/-- The physical records of one record: a FULL one, or a FIRST one, MIDDLE ones and
a LAST one. -/
inductive Spells : Slice → List Fragment → Prop where
  | full (payload : Slice) : Spells payload [⟨.full, payload⟩]
  | parts (first : Slice) (middles : List Slice) (last : Slice) :
      Spells (first ++ middles.flatten ++ last)
        (⟨.first, first⟩ :: middles.map (⟨.middle, ·⟩) ++ [⟨.last, last⟩])

/-- The outcome of a physical record. -/
def Fragment.outcome (placed : Nat × Fragment) : Outcome :=
  .record placed.2.type.code placed.2.payload (BitVec.ofNat 64 placed.1)

/-- The records come from separate runs of immediately consecutive outcomes, in
order: each is spelled by the stored physical records of its run and has the
offset of the first of them. -/
inductive Runs (contents : Slice) (initialOffset : BitVec 64) :
    List Outcome → List (Slice × BitVec 64) → Prop where
  | done (rest : List Outcome) : Runs contents initialOffset rest []
  | next (gap : List Outcome) (first : Nat × Fragment) (parts : List (Nat × Fragment))
      {later : List Outcome} {record : Slice} {records : List (Slice × BitVec 64)}
      (stored : ∀ placed ∈ first :: parts, Stored contents initialOffset placed)
      (spelled : Spells record ((first :: parts).map Prod.snd))
      (rest : Runs contents initialOffset later records) :
      Runs contents initialOffset (gap ++ ((first :: parts).map Fragment.outcome ++ later))
        ((record, BitVec.ofNat 64 first.1) :: records)

theorem Runs.gap {contents : Slice} {initialOffset : BitVec 64} {outcomes : List Outcome}
    {records : List (Slice × BitVec 64)} (before : List Outcome)
    (runs : Runs contents initialOffset outcomes records) :
    Runs contents initialOffset (before ++ outcomes) records := by
  cases runs with
  | done rest => exact .done _
  | next gap first parts stored spelled rest =>
      rw [← List.append_assoc]
      exact .next (before ++ gap) first parts stored spelled rest

/-- The physical records of a record that is under way. -/
structure Pending (contents : Slice) (initialOffset : BitVec 64) (assembly : Assembly)
    (first : Nat × Fragment) (parts : List (Nat × Fragment)) : Prop where
  stored : ∀ placed ∈ first :: parts, Stored contents initialOffset placed
  spelled : ∃ (head : Slice) (middles : List Slice), (first :: parts).map Prod.snd =
    ⟨.first, head⟩ :: middles.map (⟨.middle, ·⟩) ∧ assembly.scratch = head ++ middles.flatten
  prospective : assembly.prospectiveRecordOffset = BitVec.ofNat 64 first.1

theorem Event.outcome_record (known : RecordType) (payload : Slice) (start : Nat) :
    (Event.record known.code payload start).outcome = Fragment.outcome (start, ⟨known, payload⟩) :=
  if_neg (RecordType.code_ne_kBadRecord known)

/-- An event that leads to another iteration is not the end of the file. -/
theorem Event.open_of_decision {event : Event} {assembly : Assembly}
    (goes : ∀ next, (event.decision assembly).2 ≠ .stop next) : event.type ≠ kEof := by
  intro ended
  cases event with
  | record type payload start =>
      cases ended
      obtain ⟨next, stops⟩ := assembly.accept_kEof payload (BitVec.ofNat 64 start)
      exact goes next (congrArg Prod.snd stops)
  | bad stop drop => exact absurd ended (by decide : kBadRecord ≠ kEof)

section

variable {contents : Slice} {initialOffset : BitVec 64} {assembly : Assembly}
  {first : Nat × Fragment} {parts : List (Nat × Fragment)} {start : Nat} {payload : Slice}

/-- A FIRST record is the first one of the record it begins. -/
theorem pending_first (stored : Stored contents initialOffset (start, ⟨.first, payload⟩)) :
    Pending contents initialOffset ⟨false, true, BitVec.ofNat 64 start, payload⟩
      (start, ⟨.first, payload⟩) [] where
  stored := List.forall_mem_singleton.mpr stored
  spelled := ⟨payload, [], rfl, (List.append_nil _).symm⟩
  prospective := rfl

/-- A MIDDLE record is one more of the record under way. -/
theorem Pending.middle (pending : Pending contents initialOffset assembly first parts)
    (stored : Stored contents initialOffset (start, ⟨.middle, payload⟩)) :
    Pending contents initialOffset
      ⟨false, true, assembly.prospectiveRecordOffset, assembly.scratch ++ payload⟩ first
      (parts ++ [(start, ⟨.middle, payload⟩)]) where
  stored := by
    rw [← List.cons_append, List.forall_mem_append]
    exact ⟨pending.stored, List.forall_mem_singleton.mpr stored⟩
  spelled := by
    obtain ⟨head, middles, spelled, held⟩ := pending.spelled
    refine ⟨head, middles ++ [payload], ?_, ?_⟩
    · rw [← List.cons_append, List.map_append, spelled, List.map_append]
      rfl
    · rw [held, List.flatten_append, List.flatten_singleton, List.append_assoc]
  prospective := pending.prospective

/-- A LAST record completes the record under way. -/
theorem Pending.last (pending : Pending contents initialOffset assembly first parts)
    (stored : Stored contents initialOffset (start, ⟨.last, payload⟩)) :
    (∀ placed ∈ first :: (parts ++ [(start, ⟨.last, payload⟩)]),
        Stored contents initialOffset placed) ∧
      Spells (assembly.scratch ++ payload)
        ((first :: (parts ++ [(start, ⟨.last, payload⟩)])).map Prod.snd) := by
  constructor
  · rw [← List.cons_append, List.forall_mem_append]
    exact ⟨pending.stored, List.forall_mem_singleton.mpr stored⟩
  · obtain ⟨head, middles, spelled, held⟩ := pending.spelled
    rw [← List.cons_append, List.map_append, spelled, held]
    exact .parts head middles payload

end

/-- What `assemble` returns comes from separate runs of stored physical records,
the first of which may have begun before. -/
theorem assemble_runs {contents : Slice} {events : List Event}
    (stored : ∀ (known : RecordType) (payload : Slice) (start : Nat),
      .record known.code payload start ∈ events →
      Stored contents config.initialOffset (start, ⟨known, payload⟩)) :
    ∀ (assembly : Assembly), assembly.Sound →
      (assembly.inFragmentedRecord = false →
        Runs contents config.initialOffset ((untilEof events).map Event.outcome)
          (assemble config assembly events).1) ∧
      (assembly.inFragmentedRecord = true → ∀ first parts,
        Pending contents config.initialOffset assembly first parts →
        Runs contents config.initialOffset
          ((first :: parts).map Fragment.outcome ++ (untilEof events).map Event.outcome)
          (assemble config assembly events).1) := by
  induction events with
  | nil =>
      intro assembly _
      exact ⟨fun _ => .done _, fun _ _ _ _ => .done _⟩
  | cons event later ih =>
      intro assembly sound
      have onward := ih fun known payload start member =>
        stored known payload start (List.mem_cons_of_mem _ member)
      cases verdict : (event.decision assembly).2 with
      | stop next =>
          simp only [assemble, verdict]
          exact ⟨fun _ => .done _, fun _ _ _ _ => .done _⟩
      | again next =>
          have open_ : event.type ≠ kEof := Event.open_of_decision fun other stops =>
            Verdict.noConfusion (verdict.symm.trans stops)
          rw [untilEof_cons later open_, List.map_cons]
          simp only [assemble, verdict]
          cases event with
          | bad stop drop =>
              obtain ⟨nextSound, cases⟩ := Assembly.accept_again sound verdict
              have dropped : next.inFragmentedRecord = false := by
                rcases cases with dropped | ⟨type, _⟩ | ⟨type, _⟩
                · exact dropped
                · exact absurd type.symm (RecordType.code_ne_kBadRecord _)
                · exact absurd type.symm (RecordType.code_ne_kBadRecord _)
              have rest := ((onward next nextSound).1 dropped).gap
                [(Event.bad stop drop).outcome]
              exact ⟨fun _ => rest, fun _ first parts _ => rest.gap _⟩
          | record type payload start =>
              obtain ⟨nextSound, dropped | ⟨rfl, rfl⟩ | ⟨rfl, fragmented, prospective, scratch⟩⟩ :=
                Assembly.accept_again sound verdict
              · have rest := ((onward next nextSound).1 dropped).gap
                  [(Event.record type payload start).outcome]
                exact ⟨fun _ => rest, fun _ first parts _ => rest.gap _⟩
              · have rest := (onward _ nextSound).2 rfl _ _
                  (pending_first (stored .first payload start List.mem_cons_self))
                rw [Event.outcome_record]
                exact ⟨fun _ => rest, fun _ first parts _ => rest.gap _⟩
              · refine ⟨fun idle => absurd (idle.symm.trans fragmented) (by decide), ?_⟩
                intro _ first parts pending
                have rest := (onward _ nextSound).2 rfl _ _
                  (pending.middle (stored .middle payload start List.mem_cons_self))
                rw [Event.outcome_record, List.append_cons, ← List.map_singleton,
                  ← List.map_append, List.cons_append]
                exact rest
      | found record offset next =>
          have open_ : event.type ≠ kEof := Event.open_of_decision fun other stops =>
            Verdict.noConfusion (verdict.symm.trans stops)
          rw [untilEof_cons later open_, List.map_cons]
          simp only [assemble, verdict]
          have rest := (onward (.fresh next.resyncing) (Assembly.sound_fresh _)).1 rfl
          cases event with
          | bad stop drop =>
              rcases Assembly.accept_found verdict with ⟨type, _⟩ | ⟨type, _⟩
              · exact absurd type.symm (RecordType.code_ne_kBadRecord _)
              · exact absurd type.symm (RecordType.code_ne_kBadRecord _)
          | record type payload start =>
              rcases Assembly.accept_found verdict with
                ⟨rfl, rfl, rfl⟩ | ⟨rfl, fragmented, rfl, rfl⟩
              · rw [Event.outcome_record]
                have run := Runs.next [] (start, ⟨.full, record⟩) []
                  (List.forall_mem_singleton.mpr
                    (stored .full record start List.mem_cons_self)) (.full record) rest
                exact ⟨fun _ => run, fun _ first parts _ => run.gap _⟩
              · refine ⟨fun idle => absurd (idle.symm.trans fragmented) (by decide), ?_⟩
                intro _ first parts pending
                obtain ⟨allStored, spelled⟩ :=
                  pending.last (stored .last payload start List.mem_cons_self)
                rw [Event.outcome_record, pending.prospective, List.append_cons,
                  ← List.map_singleton, ← List.map_append, List.cons_append]
                exact Runs.next [] first _ allStored spelled rest

/-- Two physical records come in the order of their offsets. -/
def Outcome.Earlier : Outcome → Outcome → Prop
  | .record _ _ left, .record _ _ right => left.toNat < right.toNat
  | _, _ => True

/-- The offsets of records from separate runs increase. -/
theorem Runs.increasing {contents : Slice} {initialOffset : BitVec 64} {outcomes : List Outcome}
    {records : List (Slice × BitVec 64)} (runs : Runs contents initialOffset outcomes records)
    (order : outcomes.Pairwise Outcome.Earlier) :
    (∀ found ∈ records, ∃ type payload, .record type payload found.2 ∈ outcomes) ∧
      (records.map fun found => found.2.toNat).Pairwise (· < ·) := by
  induction runs with
  | done rest => exact ⟨fun _ absurd => (by cases absurd), List.Pairwise.nil⟩
  | @next gap first parts later record records stored spelled rest ih =>
      have here : Fragment.outcome first ∈ (first :: parts).map Fragment.outcome :=
        List.mem_cons_self
      obtain ⟨_, laterOrder, across⟩ :=
        List.pairwise_append.mp (List.pairwise_append.mp order).2.1
      obtain ⟨members, increasing⟩ := ih laterOrder
      refine ⟨List.forall_mem_cons.mpr ⟨?_, ?_⟩, List.pairwise_cons.mpr ⟨?_, increasing⟩⟩
      · exact ⟨_, _, List.mem_append_right _ (List.mem_append_left _ here)⟩
      · intro found member
        obtain ⟨type, payload, inside⟩ := members found member
        exact ⟨type, payload, List.mem_append_right _ (List.mem_append_right _ inside)⟩
      · intro offset member
        obtain ⟨found, inRecords, rfl⟩ := List.mem_map.mp member
        obtain ⟨type, payload, inside⟩ := members found inRecords
        exact across _ here _ inside

/-- Events end by the end of the file. -/
theorem scan_stop_le (offset : Nat) (data : Slice) :
    ∀ event ∈ scan config offset data, event.stop ≤ offset + data.length := by
  induction offset, data using scan.induct config with
  | case1 offset data parsed =>
      rw [scan_of_none parsed]
      intro event member
      cases member
  | case2 offset data event parsed ih =>
      rw [scan_of_some parsed]
      have bounds := parseAt_stop parsed
      rw [List.length_take, List.length_drop] at bounds
      unfold nextStart at bounds
      have positive : 0 < kHeaderSize := by decide
      intro other member
      rcases List.mem_cons.mp member with rfl | later
      · omega
      · have := ih other later
        rw [List.length_drop] at this
        omega

/-- A scan of a file meets physical records in the order of their offsets. -/
theorem scan_earlier {contents : Slice} (bounded : contents.length < 2 ^ 64) (offset : Nat) :
    ((scan config offset (contents.drop offset)).map Event.outcome).Pairwise Outcome.Earlier := by
  rw [List.pairwise_map]
  refine List.Pairwise.imp_of_mem ?_ (scan_pairwise offset (contents.drop offset)).2
  intro left right inLeft inRight order
  have stops : ∀ event ∈ scan config offset (contents.drop offset), event.stop < 2 ^ 64 := by
    intro event member
    have := scan_stop_le offset _ event member
    rw [List.length_drop] at this
    by_cases inside : offset ≤ contents.length
    · omega
    · rw [List.drop_eq_nil_of_le (by omega), scan_nil] at member
      cases member
  have leftStop := stops left inLeft
  have rightStop := stops right inRight
  have positive : 0 < kHeaderSize := by decide
  rcases left.outcome_cases with rejected | ⟨type, payload, start, rfl, found⟩
  · rw [rejected]
    trivial
  rcases right.outcome_cases with rejected | ⟨type', payload', start', rfl, found'⟩
  · rw [rejected, found]
    trivial
  have after := order type' payload' start' rfl
  rw [found, found']
  simp only [Outcome.Earlier, BitVec.toNat_ofNat]
  simp only [Event.stop] at leftStop rightStop after
  omega

/-- Soundness over arbitrary bytes: what a checksumming reader returns before its
first false comes from separate runs of stored physical records in its scan, and
the offsets it tells increase. The file is shorter than a 64-bit number tells. -/
theorem readAll_sound (contents : Slice) (reporter : Bool) (initialOffset : BitVec 64)
    (pastEnd : Status) (bounded : contents.length < 2 ^ 64) :
    let reader := Reader.new (toRead contents pastEnd) ⟨reporter, true, initialOffset⟩
    Runs contents initialOffset reader.scanned reader.readAll.1 ∧
      (reader.readAll.1.map fun found => found.2.toNat).Pairwise (· < ·) := by
  intro reader
  have records := (Reader.readAll_new (toRead contents pastEnd) ⟨reporter, true, initialOffset⟩
    rfl).1
  have scanned := Reader.scanned_new (toRead contents pastEnd) ⟨reporter, true, initialOffset⟩ rfl
  have runs : Runs contents initialOffset reader.scanned reader.readAll.1 := by
    simp only [reader]
    rw [records, scanned]
    have stored := @scan_stored ⟨reporter, true, initialOffset⟩ contents rfl bounded
      (Reader.blockStartLocation initialOffset).toNat
    exact (assemble_runs stored (.fresh _) (Assembly.sound_fresh _)).1 rfl
  refine ⟨runs, (runs.increasing ?_).2⟩
  simp only [reader]
  rw [scanned]
  have order := @scan_earlier ⟨reporter, true, initialOffset⟩ contents bounded
    (Reader.blockStartLocation initialOffset).toNat
  exact order.sublist ((List.takeWhile_prefix _).sublist.map _)

/-- Over the bytes of one FULL record. -/
theorem readAll_sound_full :
    (⟨.full, [0x61#8]⟩ : Fragment).bytes.length < 2 ^ 64 ∧
      Runs (⟨.full, [0x61#8]⟩ : Fragment).bytes 0
        (Reader.new (toRead (⟨.full, [0x61#8]⟩ : Fragment).bytes .ok) ⟨true, true, 0⟩).scanned
        (Reader.new (toRead (⟨.full, [0x61#8]⟩ : Fragment).bytes .ok) ⟨true, true, 0⟩).readAll.1 :=
  have bounded : (⟨.full, [0x61#8]⟩ : Fragment).bytes.length < 2 ^ 64 := by
    rw [Fragment.length_bytes]
    decide
  ⟨bounded, (readAll_sound _ true 0 .ok bounded).1⟩

end MiniLevelDb.Log
