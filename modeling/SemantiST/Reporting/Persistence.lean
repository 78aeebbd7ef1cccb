import SemantiST.Reporting.Findings

/-!
# Findings on disk

When what `persist` writes is read again as it was, and what `raw_count` counts.
-/

namespace SemantiST.Reporting

open Lib

variable {finding : RawFinding} {findings : List RawFinding} {record : FindingRecord} {dedup : FindingDeduplicator}
  {files : List (Text × RecordJson)} {takes : Text → Bool}

/-! ## What a state keeps -/

/-- Each record stands for its first finding and its duplicates. -/
def Counted (dedup : FindingDeduplicator) : Prop :=
  dedup.rawCount = (dedup.records.map fun entry => entry.2.duplicateCount + 1).sum

/-- What is to be kept of a record. -/
def kept (record : FindingRecord) : ℕ × List Text × Text × List (Text × Text) :=
  (record.duplicateCount, record.representativeSeeds, record.replayStatus, record.semanticEvidence)

/-- **Nothing is lost**: the deduplicator is written, and read into a fresh one with the same keys. -/
def Lossless (takes : Text → Bool) (dedup : FindingDeduplicator) : Prop :=
  ∃ files, dedup.persist takes = some files ∧
    (∀ key, (value (FindingDeduplicator.loadLegacyRecords {} files).records key).map kept =
      (value dedup.records key).map kept) ∧
    (FindingDeduplicator.loadLegacyRecords {} files).rawCount = dedup.rawCount

/-! ## Records of findings -/

/-- A record has the signature and the place of a finding. -/
structure RecordOf (record : FindingRecord) (finding : RawFinding) : Prop where
  signature : record.signature = buildSignature finding
  errorKind : record.errorKind = finding.kind
  function : record.function = finding.function
  sourceLocation : record.sourceLocation = finding.sourceLocation

theorem recordOf_record (finding : RawFinding) : RecordOf finding.record finding := ⟨rfl, rfl, rfl, rfl⟩

theorem RecordOf.duplicate {other : RawFinding} (h : RecordOf record finding) :
    RecordOf (other.duplicate record) finding := ⟨h.signature, h.errorKind, h.function, h.sourceLocation⟩

theorem RecordOf.key (h : RecordOf record finding) : record.signature.key = finding.key := by
  rw [h.signature]
  rfl

@[simp] theorem orElse_self (text : Option Text) : orElse text text = text := by
  unfold orElse
  split <;> rfl

/-- **A record that is read has the key it was written with.** -/
theorem RecordOf.key_fromJson (h : RecordOf record finding) :
    (FindingRecord.fromJson record.toJson).signature.key = finding.key := by
  have hread : (FindingRecord.fromJson record.toJson).signature.key =
      ({ buildSignature finding with
        function := finding.function
        kind := finding.kind
        sourceLocation := orElse (buildSignature finding).sourceLocation finding.sourceLocation } :
          FindingSignature).key := by
    unfold FindingRecord.fromJson FindingRecord.toJson
    rw [h.signature, h.errorKind, h.function, h.sourceLocation]
  rw [hread]
  unfold RawFinding.key buildSignature
  split
  · rfl
  split
  · simp only [orElse_self]
  · rfl

/-! ## States -/

/-- A deduplicator has one record for each key of some findings. -/
structure Groups (findings : List RawFinding) (dedup : FindingDeduplicator) : Prop where
  nodup : (dedup.records.map Prod.fst).Nodup
  own : ∀ entry ∈ dedup.records, ∃ finding ∈ findings, entry.1 = finding.key ∧ RecordOf entry.2 finding
  keys : ∀ finding ∈ findings, finding.key ∈ dedup.records.map Prod.fst

theorem Groups.add (h : Groups findings dedup) (finding : RawFinding) :
    Groups (findings ++ [finding]) (dedup.add finding) where
  nodup := nodup_put h.nodup
  own entry hentry := by
    rcases mem_put hentry with rfl | hold
    · cases hvalue : value dedup.records finding.key with
      | none => exact ⟨finding, List.mem_append_right _ (List.mem_singleton_self _), rfl, recordOf_record finding⟩
      | some record =>
        obtain ⟨first, hfirst, hkey, hrecord⟩ := h.own _ (mem_of_value hvalue)
        exact ⟨first, List.mem_append_left _ hfirst, hkey, hrecord.duplicate⟩
    · obtain ⟨first, hfirst, hkey, hrecord⟩ := h.own entry hold
      exact ⟨first, List.mem_append_left _ hfirst, hkey, hrecord⟩
  keys other hother := by
    rw [FindingDeduplicator.add, mem_keys_put]
    rcases List.mem_append.1 hother with hother | hother
    · exact .inl (h.keys other hother)
    · exact .inr (by rw [List.mem_singleton.1 hother])

theorem groups_addAll (findings : List RawFinding) : Groups findings (FindingDeduplicator.addAll findings) := by
  induction findings using List.reverseRecOn with
  | nil => exact ⟨List.nodup_nil, fun _ h => (List.not_mem_nil h).elim, fun _ h => (List.not_mem_nil h).elim⟩
  | append_singleton findings finding ih =>
    rw [FindingDeduplicator.addAll, List.foldl_append]
    exact ih.add finding

/-- Each key is that of its record. -/
theorem Groups.key_eq (h : Groups findings dedup) : ∀ entry ∈ dedup.records, entry.2.signature.key = entry.1 := by
  intro entry hentry
  obtain ⟨finding, -, hkey, hrecord⟩ := h.own entry hentry
  rw [hkey, hrecord.key]

theorem Groups.key_fromJson (h : Groups findings dedup) :
    ∀ entry ∈ dedup.records, (FindingRecord.fromJson entry.2.toJson).signature.key = entry.1 := by
  intro entry hentry
  obtain ⟨finding, -, hkey, hrecord⟩ := h.own entry hentry
  rw [hkey, hrecord.key_fromJson]

/-! ## Counting -/

theorem counted_add (hnodup : (dedup.records.map Prod.fst).Nodup) (h : Counted dedup) (finding : RawFinding) :
    Counted (dedup.add finding) := by
  unfold Counted at h ⊢
  unfold FindingDeduplicator.add
  cases hvalue : value dedup.records finding.key with
  | none =>
    dsimp only
    rw [put, if_neg (value_eq_none_iff.1 hvalue), List.map_append, List.sum_append, ← h]
    rfl
  | some record =>
    have hsum := sum_put (fun record => record.duplicateCount + 1) hnodup (mem_of_value hvalue)
      (w := finding.duplicate record)
    have hcount : (finding.duplicate record).duplicateCount = record.duplicateCount + 1 := rfl
    rw [hcount] at hsum
    dsimp only
    omega

theorem counted_loadFile (h : Counted dedup) (file : Text × RecordJson) : Counted (dedup.loadFile file) := by
  unfold Counted at h ⊢
  unfold FindingDeduplicator.loadFile
  dsimp only
  split
  · exact h
  · rename_i hnew
    rw [not_or] at hnew
    dsimp only
    rw [put, if_neg hnew.2, List.map_append, List.sum_append, ← h]
    rfl

theorem nodup_loadFile (h : (dedup.records.map Prod.fst).Nodup) (file : Text × RecordJson) :
    ((dedup.loadFile file).records.map Prod.fst).Nodup := by
  unfold FindingDeduplicator.loadFile
  dsimp only
  split
  · exact h
  · exact nodup_put h

/-- What is done with a deduplicator. -/
inductive Call where
  | add (finding : RawFinding)
  | load (files : List (Text × RecordJson))

def Call.apply (dedup : FindingDeduplicator) : Call → FindingDeduplicator
  | .add finding => dedup.add finding
  | .load files => dedup.loadLegacyRecords files

/-- What holds in every state. -/
structure Sound (dedup : FindingDeduplicator) : Prop where
  counted : Counted dedup
  nodup : (dedup.records.map Prod.fst).Nodup

theorem sound_empty : Sound {} := ⟨rfl, List.nodup_nil⟩

theorem Sound.apply (h : Sound dedup) (call : Call) : Sound (call.apply dedup) := by
  cases call with
  | add finding => exact ⟨counted_add h.nodup h.counted finding, nodup_put h.nodup⟩
  | load files =>
    exact List.foldlRecOn _ FindingDeduplicator.loadFile h fun dedup h file _ =>
      ⟨counted_loadFile h.counted file, nodup_loadFile h.nodup file⟩

/-- **The raw count is that of the records in every state.** -/
theorem sound_calls (calls : List Call) : Sound (calls.foldl Call.apply {}) :=
  List.foldlRecOn calls Call.apply sound_empty fun _ h call _ => h.apply call

/-! ## Reading what was written -/

/-- The key that a file is read under. -/
def keyRead (file : Text × RecordJson) : Text := (FindingRecord.fromJson file.2).signature.key

theorem foldl_loadFile (hversion : ∀ file ∈ files, file.2.schemaVersion = recordVersion)
    (hnodup : (dedup.records.map Prod.fst ++ files.map keyRead).Nodup) :
    (files.foldl FindingDeduplicator.loadFile dedup).records =
      dedup.records ++ files.map fun file => (keyRead file, FindingRecord.fromJson file.2) := by
  induction files generalizing dedup with
  | nil => simp
  | cons file files ih =>
    have hnew : keyRead file ∉ dedup.records.map Prod.fst := by
      intro hmem
      rw [List.map_cons] at hnodup
      exact (List.nodup_append.1 hnodup).2.2 _ hmem _ List.mem_cons_self rfl
    have hload : (dedup.loadFile file).records =
        dedup.records ++ [(keyRead file, FindingRecord.fromJson file.2)] := by
      have hskip : ¬(file.2.schemaVersion ≠ recordVersion ∨ keyRead file ∈ dedup.records.map Prod.fst) := by
        rw [not_or, not_not]
        exact ⟨hversion file List.mem_cons_self, hnew⟩
      unfold FindingDeduplicator.loadFile
      dsimp only
      exact (congrArg FindingDeduplicator.records (if_neg hskip)).trans (if_neg hnew)
    rw [List.foldl_cons, ih (fun other hother => hversion other (List.mem_cons_of_mem _ hother)), hload,
      List.map_cons, List.append_assoc, List.singleton_append]
    rw [hload, List.map_append, List.append_assoc]
    exact hnodup

/-- The file of a record. -/
def fileOf (entry : Text × FindingRecord) : Text × RecordJson :=
  (FindingDeduplicator.fileName entry.2.signature.key, entry.2.toJson)

/-- A directory that takes the names of some records. -/
def writeFile (takes : Text → Bool) (files : List (Text × RecordJson)) (entry : Text × FindingRecord) :
    Option (List (Text × RecordJson)) :=
  if takes (fileOf entry).1 then some (put files (fileOf entry).1 (fileOf entry).2) else none

theorem foldlM_writeFile {records : List (Text × FindingRecord)}
    (htakes : ∀ entry ∈ records, takes (fileOf entry).1 = true)
    (hnodup : (files.map Prod.fst ++ records.map fun entry => (fileOf entry).1).Nodup) :
    records.foldlM (writeFile takes) files = some (files ++ records.map fileOf) := by
  induction records generalizing files with
  | nil => simp
  | cons entry records ih =>
    have hnew : (fileOf entry).1 ∉ files.map Prod.fst := by
      intro hmem
      rw [List.map_cons] at hnodup
      exact (List.nodup_append.1 hnodup).2.2 _ hmem _ List.mem_cons_self rfl
    have hwrite : writeFile takes files entry = some (files ++ [fileOf entry]) := by
      rw [writeFile, if_pos (htakes entry List.mem_cons_self), put, if_neg hnew]
    rw [List.foldlM_cons, hwrite]
    change records.foldlM (writeFile takes) (files ++ [fileOf entry]) = _
    rw [ih (fun other hother => htakes other (List.mem_cons_of_mem _ hother)), List.map_cons, List.append_assoc,
      List.singleton_append]
    rw [List.map_append, List.append_assoc]
    exact hnodup

/-- What is written has taken names only, each of them once. -/
theorem of_foldlM_writeFile {records : List (Text × FindingRecord)} {files' : List (Text × RecordJson)}
    (h : records.foldlM (writeFile takes) files = some files') (hnodup : (files.map Prod.fst).Nodup) :
    (∀ entry ∈ records, takes (fileOf entry).1 = true) ∧ (files'.map Prod.fst).Nodup ∧
      ∀ name ∈ files'.map Prod.fst, name ∈ files.map Prod.fst ∨ name ∈ records.map fun entry => (fileOf entry).1 := by
  induction records generalizing files with
  | nil =>
    cases h
    exact ⟨fun _ h => (List.not_mem_nil h).elim, hnodup, fun _ h => .inl h⟩
  | cons entry records ih =>
    rw [List.foldlM_cons] at h
    by_cases htake : takes (fileOf entry).1 = true
    · rw [writeFile, if_pos htake] at h
      obtain ⟨htakes, hnodup', hnames⟩ := ih h (nodup_put hnodup)
      refine ⟨?_, hnodup', fun name hname => ?_⟩
      · intro other hother
        rcases List.mem_cons.1 hother with rfl | hother
        · exact htake
        · exact htakes other hother
      · rcases hnames name hname with hold | hrest
        · rcases mem_keys_put.1 hold with hold | rfl
          · exact .inl hold
          · exact .inr List.mem_cons_self
        · exact .inr (List.mem_cons_of_mem _ hrest)
    · rw [writeFile, if_neg htake] at h
      cases h

theorem length_foldl_loadFile :
    (files.foldl FindingDeduplicator.loadFile dedup).records.length ≤ dedup.records.length + files.length := by
  induction files generalizing dedup with
  | nil => exact Nat.le_refl _
  | cons file files ih =>
    have hfile : (dedup.loadFile file).records.length ≤ dedup.records.length + 1 := by
      unfold FindingDeduplicator.loadFile
      dsimp only
      split
      · exact Nat.le_succ _
      · exact length_put_le
    have hrest := @ih (dedup.loadFile file)
    rw [List.foldl_cons, List.length_cons]
    omega

/-! ## Lossless findings -/

/-- The names of the files of some findings are taken, and tell their keys apart. -/
structure ToldApart (takes : Text → Bool) (findings : List RawFinding) : Prop where
  taken : ∀ finding ∈ findings, takes (FindingDeduplicator.fileName finding.key) = true
  distinct : ∀ finding ∈ findings, ∀ other ∈ findings,
    FindingDeduplicator.fileName finding.key = FindingDeduplicator.fileName other.key → finding.key = other.key

theorem persist_eq (takes : Text → Bool) (dedup : FindingDeduplicator) :
    dedup.persist takes = dedup.records.foldlM (writeFile takes) [] := rfl

theorem Groups.fileOf_eq (h : Groups findings dedup) {entry : Text × FindingRecord} (hentry : entry ∈ dedup.records) :
    (fileOf entry).1 = FindingDeduplicator.fileName entry.1 := by
  rw [fileOf, h.key_eq entry hentry]

/-- A finding has a record. -/
theorem Groups.exists_entry (h : Groups findings dedup) (hfinding : finding ∈ findings) :
    ∃ entry ∈ dedup.records, entry.1 = finding.key := by
  obtain ⟨entry, hentry, hkey⟩ := List.mem_map.1 (h.keys finding hfinding)
  exact ⟨entry, hentry, hkey⟩

/-- **What is lossless has names that tell the keys apart**: otherwise there are fewer files than records. -/
theorem Groups.toldApart (h : Groups findings dedup) (hlossless : Lossless takes dedup) :
    ToldApart takes findings := by
  obtain ⟨files, hpersist, hvalues, -⟩ := hlossless
  rw [persist_eq] at hpersist
  obtain ⟨htakes, hnodup, hnames⟩ := of_foldlM_writeFile hpersist List.nodup_nil
  have hkeys : dedup.records.map Prod.fst ⊆
      (FindingDeduplicator.loadLegacyRecords {} files).records.map Prod.fst := by
    intro key hkey
    by_contra hmissing
    have hvalue := hvalues key
    rw [value_eq_none_iff.2 hmissing, Option.map_none, eq_comm, Option.map_eq_none_iff, value_eq_none_iff] at hvalue
    exact hvalue hkey
  have hle : dedup.records.length ≤ files.length := by
    have hrecords := (List.subperm_of_subset h.nodup hkeys).length_le
    rw [List.length_map, List.length_map] at hrecords
    have hload : (FindingDeduplicator.loadLegacyRecords {} files).records.length ≤ files.length := by
      have hfold := @length_foldl_loadFile {} (sortBy (fun a b => compare a.1 b.1) files)
      have hlength : (sortBy (fun a b => compare a.1 b.1) files).length = files.length := List.length_insertionSort _ _
      rw [hlength] at hfold
      exact hfold.trans_eq (Nat.zero_add _)
    exact hrecords.trans hload
  have hsubset : files.map Prod.fst ⊆ dedup.records.map fun entry => (fileOf entry).1 := by
    intro name hname
    exact (hnames name hname).resolve_left List.not_mem_nil
  have hperm : (files.map Prod.fst).Perm (dedup.records.map fun entry => (fileOf entry).1) :=
    (List.subperm_of_subset hnodup hsubset).perm_of_length_le (by simpa using hle)
  have hinj := List.inj_on_of_nodup_map (hperm.nodup_iff.1 hnodup)
  constructor
  · intro finding hfinding
    obtain ⟨entry, hentry, hkey⟩ := h.exists_entry hfinding
    rw [← hkey, ← h.fileOf_eq hentry]
    exact htakes entry hentry
  · intro finding hfinding other hother hname
    obtain ⟨entry, hentry, hkey⟩ := h.exists_entry hfinding
    obtain ⟨entry', hentry', hkey'⟩ := h.exists_entry hother
    rw [← hkey, ← hkey', ← h.fileOf_eq hentry, ← h.fileOf_eq hentry'] at hname
    rw [← hkey, ← hkey', hinj hentry hentry' hname]

theorem Groups.nodup_files (h : Groups findings dedup) (hapart : ToldApart takes findings) :
    (dedup.records.map fun entry => (fileOf entry).1).Nodup := by
  refine List.Nodup.map_on (fun entry hentry entry' hentry' hname => ?_) (List.Nodup.of_map _ h.nodup)
  obtain ⟨finding, hfinding, hkey, -⟩ := h.own entry hentry
  obtain ⟨finding', hfinding', hkey', -⟩ := h.own entry' hentry'
  rw [h.fileOf_eq hentry, h.fileOf_eq hentry', hkey, hkey'] at hname
  have heq := hapart.distinct finding hfinding finding' hfinding' hname
  exact List.inj_on_of_nodup_map h.nodup hentry hentry' (hkey.trans (heq.trans hkey'.symm))

/-- **Names that tell the keys apart lose nothing.** -/
theorem Groups.lossless (h : Groups findings dedup) (hsound : Sound dedup) (hapart : ToldApart takes findings) :
    Lossless takes dedup := by
  have htakes : ∀ entry ∈ dedup.records, takes (fileOf entry).1 = true := by
    intro entry hentry
    obtain ⟨finding, hfinding, hkey, -⟩ := h.own entry hentry
    rw [h.fileOf_eq hentry, hkey]
    exact hapart.taken finding hfinding
  have hperm : (sortBy (fun a b => compare a.1 b.1) (dedup.records.map fileOf)).Perm (dedup.records.map fileOf) :=
    List.perm_insertionSort _ _
  have hread : (dedup.records.map fileOf).map keyRead = dedup.records.map Prod.fst := by
    rw [List.map_map]
    exact List.map_congr_left h.key_fromJson
  have hloaded : (FindingDeduplicator.loadLegacyRecords {} (dedup.records.map fileOf)).records =
      (sortBy (fun a b => compare a.1 b.1) (dedup.records.map fileOf)).map
        fun file => (keyRead file, FindingRecord.fromJson file.2) := by
    refine foldl_loadFile (fun file hfile => ?_) ?_
    · obtain ⟨entry, -, rfl⟩ := List.mem_map.1 (hperm.mem_iff.1 hfile)
      rfl
    · rw [List.map_nil, List.nil_append, (hperm.map keyRead).nodup_iff, hread]
      exact h.nodup
  have hrecords : (FindingDeduplicator.loadLegacyRecords {} (dedup.records.map fileOf)).records.Perm
      (dedup.records.map fun entry => (entry.1, FindingRecord.fromJson entry.2.toJson)) := by
    rw [hloaded]
    refine (hperm.map _).trans (List.Perm.of_eq ?_)
    rw [List.map_map]
    exact List.map_congr_left fun entry hentry => Prod.ext (h.key_fromJson entry hentry) rfl
  have hkeys := hrecords.map Prod.fst
  rw [List.map_map] at hkeys
  have hloadedSound : Sound (FindingDeduplicator.loadLegacyRecords {} (dedup.records.map fileOf)) :=
    sound_empty.apply (.load (dedup.records.map fileOf))
  refine ⟨dedup.records.map fileOf, foldlM_writeFile htakes (h.nodup_files hapart), fun key => ?_, ?_⟩
  · cases hvalue : value dedup.records key with
    | none =>
      have hmissing : key ∉ dedup.records.map Prod.fst := value_eq_none_iff.1 hvalue
      rw [value_eq_none_iff.2 fun hmem => hmissing (hkeys.mem_iff.1 hmem)]
    | some record =>
      have hmem : (key, FindingRecord.fromJson record.toJson) ∈
          (FindingDeduplicator.loadLegacyRecords {} (dedup.records.map fileOf)).records :=
        hrecords.mem_iff.2 (List.mem_map.2 ⟨(key, record), mem_of_value hvalue, rfl⟩)
      rw [(value_eq_some_iff hloadedSound.nodup).2 hmem]
      rfl
  · rw [hloadedSound.counted, hsound.counted, (hrecords.map _).sum_eq, List.map_map]
    rfl

theorem sound_addAll (findings : List RawFinding) : Sound (FindingDeduplicator.addAll findings) :=
  List.foldlRecOn findings FindingDeduplicator.add sound_empty fun _ h finding _ => h.apply (.add finding)

theorem lossless_iff (takes : Text → Bool) (findings : List RawFinding) :
    Lossless takes (FindingDeduplicator.addAll findings) ↔ ToldApart takes findings :=
  ⟨(groups_addAll findings).toldApart, (groups_addAll findings).lossless (sound_addAll findings)⟩

/-- **The raw count is right in every state, and findings are written without a loss if and only if** the names of
their files are taken and tell their keys apart. -/
theorem finding_persistence (takes : Text → Bool) (findings : List RawFinding) :
    (∀ calls : List Call, Counted (calls.foldl Call.apply {})) ∧
      (Lossless takes (FindingDeduplicator.addAll findings) ↔ ToldApart takes findings) :=
  ⟨fun calls => (sound_calls calls).counted, lossless_iff takes findings⟩

/-- A directory of names of at most 255 ASCII characters. -/
def takesAscii (name : Text) : Bool :=
  name.length ≤ 255 && name.all fun c => c.toNat < 128 && c ≠ '/' && c.toNat ≠ 0

/-- Two targets whose ids differ in a slash. -/
def slashFindings : List RawFinding :=
  [{ function := "F".toList, kind := "crash".toList, semanticTargetId := some "a/b".toList },
    { function := "F".toList, kind := "crash".toList, semanticTargetId := some "a_b".toList }]

/-- **Two findings share a file, and one of them is lost.** -/
theorem not_lossless_slashFindings : ¬Lossless takesAscii (FindingDeduplicator.addAll slashFindings) := by
  intro h
  have hapart := ((lossless_iff takesAscii slashFindings).1 h).distinct
  exact absurd (hapart _ List.mem_cons_self _ (List.mem_cons_of_mem _ List.mem_cons_self) (by decide +kernel))
    (by decide +kernel)

end SemantiST.Reporting
