import SemantiST.Campaign.Confirmation

/-!
# What a confirmation shows

A finding is confirmed by three probes of its testcase.  They are taken for the candidate itself where
their crashes have its diagnostic, which confirmation does not compare.
-/

namespace SemantiST.Campaign

open Lib Corpus

variable {u : UnicodeData} {abi : TargetAbi} {index : RuntimeIndex} {world : World}

/-! ## Classification -/

theorem firstHazard_eq_some {hits : List (ℕ × List ℤ)} {info : Info} (h : firstHazard index hits = some info) :
    ∃ runtimeId cycles entry, index[runtimeId]? = some entry ∧ info = hazardInfo runtimeId cycles entry := by
  obtain ⟨⟨runtimeId, cycles⟩, -, hfound⟩ := List.exists_of_findSome?_eq_some h
  obtain ⟨entry, hentry, rfl⟩ := Option.map_eq_some_iff.1 hfound
  exact ⟨runtimeId, cycles, entry, (Option.filter_eq_some_iff.1 hentry).1, rfl⟩

/-- What an observation can be taken for. -/
theorem classify_cases {observation : Observation} {info : Info}
    (h : classify observation index = some info) :
    observation.timedOut = false ∧
      ((∃ runtimeId cycles entry, index[runtimeId]? = some entry ∧ info = hazardInfo runtimeId cycles entry) ∨
        info = scanBudgetInfo ∨ info = crashInfo observation) := by
  unfold classify at h
  split at h
  · cases h
  · rename_i htime
    refine ⟨by simpa using htime, ?_⟩
    split at h
    · rename_i found hfound
      cases h
      exact .inl (firstHazard_eq_some hfound)
    · split at h
      · cases h
        exact .inr (.inl rfl)
      · split at h
        · cases h
          exact .inr (.inr rfl)
        · cases h

theorem crashOracle_ne_scanBudget (observation : Observation) :
    crashOracle observation ≠ "scan_budget".toList := by
  have hcases : ∀ a b c : Bool,
      (if a then "division_by_zero".toList
        else if b then "array_access".toList
        else if c then "null_dereference".toList
        else "crash".toList) ≠ "scan_budget".toList := by decide
  exact hcases _ _ _

/-- What a probe can be filed or confirmed as. -/
def Classified (index : RuntimeIndex) (info : Info) : Prop :=
  ∃ observation, classify observation index = some info

theorem sourceField_filter (source : Option Source) (key : String) :
    sourceField (source.filter fun entries => !entries.isEmpty) key = sourceField source key := by
  cases source with
  | none => rfl
  | some entries =>
    by_cases hempty : entries.isEmpty
    · have hnone : entries[key.toList]? = none := by
        rw [Std.ExtTreeMap.isEmpty_iff.1 hempty]
        exact Std.ExtTreeMap.getElem?_empty
      rw [Option.filter_some, if_neg (by simp [hempty]), sourceField, sourceField, Option.bind_some, hnone]
      rfl
    · rw [Option.filter_some, if_pos (by simpa using hempty)]

theorem sourceField_congr {a b : Info} (h : a.candidateKey = b.candidateKey) (key : String) :
    sourceField a.source key = sourceField b.source key := by
  have hsource := congrArg (fun k => k.2.2) h
  rw [← sourceField_filter a.source, ← sourceField_filter b.source]
  exact congrArg (sourceField · key) hsource

/-- The same key is the same kind. -/
theorem kind_congr {a b : Info} (ha : Classified index a) (hb : Classified index b)
    (h : a.candidateKey = b.candidateKey) : a.kind = b.kind := by
  obtain ⟨oa, ha⟩ := ha
  obtain ⟨ob, hb⟩ := hb
  have horacle : a.oracle = b.oracle := congrArg (fun k => k.1) h
  have hid : a.runtimeId = b.runtimeId := congrArg (fun k => k.2.1) h
  rcases (classify_cases ha).2 with ⟨ia, ca, ea, -, rfl⟩ | rfl | rfl <;>
    rcases (classify_cases hb).2 with ⟨ib, cb, eb, -, rfl⟩ | rfl | rfl
  · rfl
  · cases hid
  · cases hid
  · cases hid
  · rfl
  · exact absurd horacle.symm (crashOracle_ne_scanBudget ob)
  · cases hid
  · exact absurd horacle (crashOracle_ne_scanBudget oa)
  · rfl

/-- Where the key is the same, so is the signature, unless the diagnostics of two crashes differ. -/
theorem signature_eq_iff {a b : Info} (ha : Classified index a) (hb : Classified index b)
    (h : a.candidateKey = b.candidateKey) :
    a.signature = b.signature ↔ (b.kind = .crash → a.diagnostic = b.diagnostic) := by
  have horacle : a.oracle = b.oracle := congrArg (fun k => k.1) h
  have hid : a.runtimeId = b.runtimeId := congrArg (fun k => k.2.1) h
  have hkind := kind_congr ha hb h
  rw [Info.signature, Info.signature, horacle, hid, sourceField_congr h, sourceField_congr h, hkind]
  by_cases hcrash : b.kind = .crash
  · simp [hcrash]
  · simp [hcrash]

/-- The same signature comes with the same evidence. -/
theorem causeEvidence_congr {a b : Info} (ha : Classified index a) (hb : Classified index b)
    (hkey : a.candidateKey = b.candidateKey) (h : a.signature = b.signature) :
    a.causeEvidence = b.causeEvidence := by
  obtain ⟨oa, ha'⟩ := ha
  obtain ⟨ob, hb'⟩ := hb
  have hid : a.runtimeId = b.runtimeId := congrArg (fun k => k.2.1) hkey
  have hkind := kind_congr ⟨oa, ha'⟩ ⟨ob, hb'⟩ hkey
  have hdiagnostic := (signature_eq_iff ⟨oa, ha'⟩ ⟨ob, hb'⟩ hkey).1 h
  rcases (classify_cases ha').2 with ⟨ia, ca, ea, hea, rfl⟩ | rfl | rfl <;>
    rcases (classify_cases hb').2 with ⟨ib, cb, eb, heb, rfl⟩ | rfl | rfl
  · cases hid
    rw [hea] at heb
    cases heb
    rfl
  · cases hid
  · cases hid
  · cases hid
  · rfl
  · cases hkind
  · cases hid
  · cases hkind
  · have hsame : (crashInfo oa).diagnostic = (crashInfo ob).diagnostic := hdiagnostic rfl
    rw [Info.causeEvidence, Info.causeEvidence, hsame]
    rfl

/-! ## Confirmation -/

section

variable {candidate : Candidate} {observations : List Observation} {finding : Finding}

theorem sameCandidate_iff {info : Info} {second : Option Info} :
    sameCandidate info second = true ↔ ∃ info', second = some info' ∧ info'.candidateKey = info.candidateKey := by
  cases second with
  | none => simp [sameCandidate]
  | some info' =>
    rw [sameCandidate, beq_iff_eq]
    constructor
    · intro h
      exact ⟨info', rfl, h.symm⟩
    · rintro ⟨_, h, hkey⟩
      cases h
      exact hkey.symm

theorem confirm_isSome_iff (hlength : observations.length = 3) :
    (confirm u abi index candidate observations).isSome ↔
      ∀ observation ∈ observations, ∃ info, classify observation index = some info ∧
        info.candidateKey = candidate.info.candidateKey := by
  have hall : ¬(observations.countP fun observation =>
      sameCandidate candidate.info (classify observation index)) < 3 ↔
      ∀ observation ∈ observations, sameCandidate candidate.info (classify observation index) = true := by
    rw [← List.countP_eq_length, hlength]
    have hle := List.countP_le_length
      (p := fun observation => sameCandidate candidate.info (classify observation index)) (l := observations)
    omega
  have hsome : (confirm u abi index candidate observations).isSome ↔
      ¬(observations.countP fun observation =>
        sameCandidate candidate.info (classify observation index)) < 3 := by
    rw [confirm]
    split
    · rename_i hlt
      exact ⟨(fun h => by cases h), fun h => absurd hlt h⟩
    · rename_i hge
      exact ⟨fun _ => hge, fun _ => rfl⟩
  rw [hsome, hall]
  exact forall₂_congr fun observation _ => sameCandidate_iff

theorem confirm_eq_some (h : confirm u abi index candidate observations = some finding) :
    finding.testcase = candidate.testcase ∧ finding.causeEvidence = candidate.info.causeEvidence := by
  unfold confirm at h
  split at h
  · cases h
  · cases h
    exact ⟨rfl, rfl⟩

end

/-! ## Probes -/

/-- The log goes on. -/
def Extends (log log' : Log) : Prop := log.probes <+: log'.probes

theorem extends_refl (log : Log) : Extends log log := List.prefix_refl _

theorem extends_of_eq {log log' : Log} (h : log'.probes = log.probes) : Extends log log' :=
  ⟨[], by rw [List.append_nil, h]⟩

theorem extends_trans (log log' log'' : Log) (h : Extends log log') (h' : Extends log' log'') :
    Extends log log'' := h.trans h'

/-- Three observations, which are probes of the testcase unless the time was out. -/
def Taken (testcase : Text) (observations : List Observation) (log : Log) : Prop :=
  observations.length = 3 ∧
    ((∀ observation ∈ observations, observation.timedOut = false) →
      (observations.map fun observation => (testcase, observation)).Sublist log.probes)

theorem Taken.mono {testcase : Text} {observations : List Observation} {log log' : Log}
    (h : Taken testcase observations log) (hle : Extends log log') : Taken testcase observations log' :=
  ⟨h.1, fun htime => (h.2 htime).trans hle.sublist⟩

theorem probeWithDeadline_spec (testcase : Text) (log : Log) :
    After (probeWithDeadline world testcase) log fun observation log' =>
      (log'.probes = log.probes ∧ observation.timedOut = true) ∨
        log'.probes = log.probes ++ [(testcase, observation)] := by
  unfold probeWithDeadline
  have hlook : After (look world) log fun _ log' => log'.probes = log.probes := rfl
  apply After.bind hlook
  intro time log₁ hprobes
  apply After.ite
  · intro _
    exact .inr (congrArg (· ++ [(testcase, _)]) hprobes)
  · intro _
    exact After.pure (.inl ⟨hprobes, rfl⟩)

theorem threeProbes_spec (testcase : Text) (log : Log) :
    After (threeProbes world testcase) log fun observations log' =>
      Extends log log' ∧ Taken testcase observations log' := by
  unfold threeProbes
  apply After.bind (probeWithDeadline_spec testcase log)
  intro first log₁ h₁
  apply After.bind (probeWithDeadline_spec testcase log₁)
  intro second log₂ h₂
  apply After.bind (probeWithDeadline_spec testcase log₂)
  intro third log₃ h₃
  apply After.pure
  have hle : ∀ (o : Observation) (l l' : Log), ((l'.probes = l.probes ∧ o.timedOut = true) ∨
      l'.probes = l.probes ++ [(testcase, o)]) → Extends l l' := by
    intro o l l' h
    rcases h with ⟨heq, -⟩ | heq
    · exact extends_of_eq heq
    · exact ⟨_, heq.symm⟩
  refine ⟨((hle _ _ _ h₁).trans (hle _ _ _ h₂)).trans (hle _ _ _ h₃), rfl, ?_⟩
  intro htime
  have hprobed : ∀ (o : Observation) (l l' : Log), o ∈ [first, second, third] →
      ((l'.probes = l.probes ∧ o.timedOut = true) ∨ l'.probes = l.probes ++ [(testcase, o)]) →
      l'.probes = l.probes ++ [(testcase, o)] := by
    intro o l l' ho h
    rcases h with ⟨-, htimed⟩ | h
    · rw [htime o ho] at htimed
      cases htimed
    · exact h
  rw [hprobed third _ _ (by simp) h₃, hprobed second _ _ (by simp) h₂, hprobed first _ _ (by simp) h₁]
  simp

/-! ## Outcomes -/

/-- The round that decides about a candidate. -/
def Outcome.evidence (outcome : Outcome) : List Observation := outcome.rounds.getLast?.getD []

/-- How an outcome came about. -/
structure Told (u : UnicodeData) (abi : TargetAbi) (index : RuntimeIndex) (outcome : Outcome) (log : Log) :
    Prop where
  taken : ∀ round ∈ outcome.rounds, Taken outcome.candidate.testcase round log
  mem_evidence : outcome.evidence ∈ outcome.rounds
  finding_eq : outcome.finding = confirm u abi index outcome.candidate outcome.evidence
  only : ∀ round ∈ outcome.rounds, (confirm u abi index outcome.candidate round).isSome →
    round = outcome.evidence

theorem Told.mono {outcome : Outcome} {log log' : Log} (h : Told u abi index outcome log)
    (hle : Extends log log') : Told u abi index outcome log' :=
  { h with taken := fun round hround => (h.taken round hround).mono hle }

theorem confirmOrRetry_spec {candidate : Candidate} {observations : List Observation} {log : Log}
    (h : Taken candidate.testcase observations log) :
    After (confirmOrRetry u abi index world candidate observations) log fun outcome log' =>
      Extends log log' ∧ outcome.candidate = candidate ∧ Told u abi index outcome log' := by
  unfold confirmOrRetry
  split
  · rename_i finding hfinding
    apply After.pure
    refine ⟨extends_refl log, rfl, ?_, List.mem_singleton_self _, hfinding.symm, ?_⟩
    · intro round hround
      rw [List.mem_singleton.1 hround]
      exact h
    · intro round hround _
      exact List.mem_singleton.1 hround
  · rename_i hnone
    have hlook : After (look world) log fun _ log' => log'.probes = log.probes := rfl
    apply After.bind hlook
    intro time log₁ hprobes
    have hle₁ : Extends log log₁ := extends_of_eq hprobes
    apply After.ite
    · intro _
      apply After.bind (threeProbes_spec candidate.testcase log₁)
      rintro retry log₂ ⟨hle₂, htaken⟩
      apply After.pure
      have hle : Extends log log₂ := hle₁.trans hle₂
      refine ⟨hle, rfl, ?_, by simp [Outcome.evidence], by simp [Outcome.evidence], ?_⟩
      · intro round hround
        rcases List.mem_pair.1 hround with rfl | rfl
        · exact h.mono hle
        · exact htaken
      · intro round hround hsome
        rcases List.mem_pair.1 hround with rfl | rfl
        · rw [hnone] at hsome
          cases hsome
        · rfl
    · intro _
      apply After.pure
      refine ⟨hle₁, rfl, ?_, List.mem_singleton_self _, hnone.symm, ?_⟩
      · intro round hround
        rw [List.mem_singleton.1 hround]
        exact h.mono hle₁
      · intro round hround _
        exact List.mem_singleton.1 hround

theorem shorten_info (candidate : Candidate) (log : Log) :
    After (shorten u abi index world candidate) log fun result _ => result.info = candidate.info := by
  unfold shorten
  split
  · exact After.pure rfl
  · apply After.ite
    · intro _
      apply After.bind (P := fun _ _ => True) trivial
      intro time log₁ _
      apply After.ite
      · intro _
        apply After.bind (P := fun _ _ => True) trivial
        intro result log₂ _
        split
        · exact After.pure rfl
        · apply After.ite
          · intro _
            exact After.pure rfl
          · intro _
            exact After.pure rfl
      · intro _
        exact After.pure rfl
    · intro _
      exact After.pure rfl

/-! ## A whole confirmation -/

/-- What is known of the candidates of a campaign. -/
structure Filed (index : RuntimeIndex) (candidates : List Candidate) : Prop where
  classified : ∀ candidate ∈ candidates, Classified index candidate.info
  distinct : (candidates.map fun candidate => candidate.info.signature).Nodup

theorem filed_of_info {candidates candidates' : List Candidate}
    (h : candidates'.map Candidate.info = candidates.map Candidate.info) (hfiled : Filed index candidates) :
    Filed index candidates' := by
  constructor
  · intro candidate hcandidate
    have hmem : candidate.info ∈ candidates.map Candidate.info := h ▸ List.mem_map_of_mem hcandidate
    obtain ⟨original, horiginal, heq⟩ := List.mem_map.1 hmem
    exact heq ▸ hfiled.classified original horiginal
  · have hsignatures : (candidates'.map fun candidate => candidate.info.signature) =
        candidates.map fun candidate => candidate.info.signature := by
      have h' := congrArg (List.map Info.signature) h
      rw [List.map_map, List.map_map] at h'
      exact h'
    rw [hsignatures]
    exact hfiled.distinct

theorem filed_register {candidates : List Candidate} (hfiled : Filed index candidates) (testcase : Text)
    {observation : Observation} {info : Info} (hinfo : classify observation index = some info) :
    Filed index (registerCandidate candidates testcase observation info) := by
  unfold registerCandidate
  split
  · exact hfiled
  · rename_i hnew
    constructor
    · intro candidate hcandidate
      rcases List.mem_append.1 hcandidate with hcandidate | hcandidate
      · exact hfiled.classified candidate hcandidate
      · rw [List.mem_singleton.1 hcandidate]
        exact ⟨observation, hinfo⟩
    · rw [List.map_append, List.map_singleton, List.nodup_append]
      refine ⟨hfiled.distinct, List.nodup_singleton _, ?_⟩
      intro signature hsignature signature' hsignature' heq
      obtain ⟨existing, hexisting, rfl⟩ := List.mem_map.1 hsignature
      rw [List.mem_singleton.1 hsignature'] at heq
      apply hnew
      rw [List.any_eq_true]
      exact ⟨existing, hexisting, by simpa using heq⟩

theorem filed_filter {candidates : List Candidate} (hfiled : Filed index candidates) (p : Candidate → Bool) :
    Filed index (candidates.filter p) :=
  ⟨fun candidate hcandidate => hfiled.classified candidate (List.mem_of_mem_filter hcandidate),
    (List.filter_sublist.map _).nodup hfiled.distinct⟩

theorem map_eq_of_forall₂ {α β γ : Type} {f : α → γ} {g : β → γ} {l : List α} {l' : List β}
    (h : List.Forall₂ (fun a b => g b = f a) l l') : l'.map g = l.map f := by
  induction h with
  | nil => rfl
  | cons hfirst _ ih => rw [List.map_cons, List.map_cons, hfirst, ih]

theorem forall_of_forall₂ {α β : Type} {P : β → Prop} {l : List α} {l' : List β}
    (h : List.Forall₂ (fun _ b => P b) l l') : ∀ b ∈ l', P b := by
  induction h with
  | nil => simp
  | cons hfirst _ ih => exact List.forall_mem_cons.2 ⟨hfirst, ih⟩

/-- What a confirmation leaves: the candidates as they are filed, and outcomes for some of them. -/
theorem runConfirmation_spec {campaign : CampaignState} (hfiled : Filed index campaign.candidates) (log : Log) :
    After (runConfirmation u abi index world campaign) log fun result log' =>
      Filed index result.1.candidates ∧ Filed index (result.2.map Outcome.candidate) ∧
        ∀ outcome ∈ result.2, Told u abi index outcome log' := by
  unfold runConfirmation
  have hshorten : After (campaign.candidates.mapM fun candidate =>
      if campaign.confirmed.any fun finding => finding.findingId = candidate.findingId then pure candidate
      else shorten u abi index world candidate) log fun candidates log' => True ∧
        List.Forall₂ (fun candidate result => result.info = candidate.info) campaign.candidates candidates := by
    apply After.mapM (L := fun _ _ => True)
      (P := fun (candidate result : Candidate) (_ : Log) => result.info = candidate.info)
      (fun _ => trivial) (fun _ _ _ _ _ => trivial) (fun _ _ _ _ h _ => h)
    intro candidate _ s _
    apply After.ite
    · intro _
      exact After.pure ⟨trivial, rfl⟩
    · intro _
      exact (shorten_info candidate s).mono fun _ _ h => ⟨trivial, h⟩
  apply After.bind hshorten
  rintro candidates log₁ ⟨-, hinfo⟩
  have hcandidates := filed_of_info (map_eq_of_forall₂ hinfo) hfiled
  have hpending := filed_filter hcandidates fun candidate =>
    !campaign.confirmed.any fun finding => finding.findingId = candidate.findingId
  generalize hpendingEq : (candidates.filter fun candidate =>
    !campaign.confirmed.any fun finding => finding.findingId = candidate.findingId) = pending at hpending
  have hprobes : After (pending.mapM fun candidate => threeProbes world candidate.testcase) log₁
      fun observations log' => Extends log₁ log' ∧
        List.Forall₂ (fun candidate round => Taken candidate.testcase round log') pending observations := by
    apply After.mapM extends_refl extends_trans
      (P := fun (candidate : Candidate) (round : List Observation) (log : Log) =>
        Taken candidate.testcase round log)
      (fun _ _ _ _ h hle => h.mono hle)
    intro candidate _ s _
    exact threeProbes_spec candidate.testcase s
  apply After.bind hprobes
  rintro observations log₂ ⟨-, htaken⟩
  have hretry : After ((pending.zip observations).mapM fun entry =>
      confirmOrRetry u abi index world entry.1 entry.2) log₂ fun outcomes log' => Extends log₂ log' ∧
        List.Forall₂ (fun entry outcome => outcome.candidate = entry.1 ∧ Told u abi index outcome log')
          (pending.zip observations) outcomes := by
    apply After.mapM extends_refl extends_trans
      (P := fun (entry : Candidate × List Observation) (outcome : Outcome) (log : Log) =>
        outcome.candidate = entry.1 ∧ Told u abi index outcome log)
      (fun _ _ _ _ h hle => ⟨h.1, h.2.mono hle⟩)
    rintro ⟨candidate, round⟩ hentry s hle
    exact confirmOrRetry_spec ((List.forall₂_zip htaken hentry).mono hle)
  apply After.bind hretry
  rintro outcomes log₃ ⟨-, htold⟩
  apply After.pure
  refine ⟨hcandidates, ?_, ?_⟩
  · have hcandidate : outcomes.map Outcome.candidate = pending := by
      have hmap := map_eq_of_forall₂ (htold.imp fun _ _ h => h.1)
      rw [hmap]
      exact List.map_fst_zip (by rw [htaken.length_eq])
    rw [hcandidate]
    exact hpending
  · exact forall_of_forall₂ (htold.imp fun _ _ h => h.2)

theorem Reached.filed {campaign : CampaignState} (h : Reached u abi index campaign) :
    Filed index campaign.candidates := by
  induction h with
  | start => exact ⟨by simp, List.nodup_nil⟩
  | register _ testcase observation hinfo ih => exact filed_register ih testcase hinfo
  | confirm _ world log ih => exact (runConfirmation_spec ih log).run.1

/-! ## Soundness -/

/-- Three probes of what is stored for a finding, each taken for what the candidate is filed under. -/
structure Reproduced (index : RuntimeIndex) (log : Log) (candidate : Candidate) (finding : Finding)
    (observations : List Observation) : Prop where
  length_eq : observations.length = 3
  probed : (observations.map fun observation => (finding.testcase, observation)).Sublist log.probes
  same : ∀ observation ∈ observations, ∃ info, classify observation index = some info ∧
    info.signature = candidate.info.signature ∧ info.causeEvidence = finding.causeEvidence

/-- Each finding is reproduced by the round that confirms it, and no two candidates are confirmed by what
is filed under one signature. -/
structure Sound (index : RuntimeIndex) (log : Log) (outcomes : List Outcome) : Prop where
  reproduced : ∀ outcome ∈ outcomes, ∀ finding, outcome.finding = some finding →
    Reproduced index log outcome.candidate finding outcome.evidence
  distinct : outcomes.Pairwise fun outcome outcome' => outcome.finding.isSome → outcome'.finding.isSome →
    ∀ observation ∈ outcome.evidence, ∀ observation' ∈ outcome'.evidence,
      (classify observation index).map Info.signature ≠ (classify observation' index).map Info.signature

/-- A round of crashes with the oracle of a crash candidate has its diagnostic. -/
def SameDiagnostics (index : RuntimeIndex) (outcomes : List Outcome) : Prop :=
  ∀ outcome ∈ outcomes, outcome.candidate.info.kind = .crash → ∀ round ∈ outcome.rounds,
    (∀ observation ∈ round, ∃ info, classify observation index = some info ∧ info.kind = .crash ∧
      info.oracle = outcome.candidate.info.oracle) →
    ∀ observation ∈ round, crashDiagnostic observation = outcome.candidate.info.diagnostic

section

variable {log : Log}

theorem eq_crashInfo {observation : Observation} {info : Info} (h : classify observation index = some info)
    (hkind : info.kind = .crash) : info = crashInfo observation := by
  rcases (classify_cases h).2 with ⟨_, _, _, -, rfl⟩ | rfl | rfl
  · cases hkind
  · cases hkind
  · rfl

theorem crash_key {info info' : Info} (h : Classified index info) (h' : Classified index info')
    (hkind : info.kind = .crash) (hkind' : info'.kind = .crash) (horacle : info.oracle = info'.oracle) :
    info.candidateKey = info'.candidateKey := by
  obtain ⟨observation, h⟩ := h
  obtain ⟨observation', h'⟩ := h'
  rw [eq_crashInfo h hkind] at horacle ⊢
  rw [eq_crashInfo h' hkind'] at horacle ⊢
  rw [Info.candidateKey, Info.candidateKey, horacle]
  rfl

/-- The round that confirms a candidate. -/
theorem Told.confirms {outcome : Outcome} {finding : Finding} (h : Told u abi index outcome log)
    (hfinding : outcome.finding = some finding) :
    ∀ observation ∈ outcome.evidence, ∃ info, classify observation index = some info ∧
      info.candidateKey = outcome.candidate.info.candidateKey := by
  have hsome := h.finding_eq.symm.trans hfinding
  exact (confirm_isSome_iff (h.taken _ h.mem_evidence).1).1 (by rw [hsome]; rfl)

/-- A finding is reproduced exactly when all its crashes have the diagnostic of the candidate. -/
theorem reproduced_iff {outcome : Outcome} {finding : Finding} (h : Told u abi index outcome log)
    (hclassified : Classified index outcome.candidate.info) (hfinding : outcome.finding = some finding) :
    Reproduced index log outcome.candidate finding outcome.evidence ↔
      (outcome.candidate.info.kind = .crash → ∀ observation ∈ outcome.evidence,
        crashDiagnostic observation = outcome.candidate.info.diagnostic) := by
  have hconfirms := h.confirms hfinding
  have hsome := h.finding_eq.symm.trans hfinding
  obtain ⟨htestcase, hevidence⟩ := confirm_eq_some hsome
  constructor
  · intro hreproduced hkind observation hobservation
    obtain ⟨info, hinfo, hkey⟩ := hconfirms observation hobservation
    obtain ⟨info', hinfo', hsignature, -⟩ := hreproduced.same observation hobservation
    rw [hinfo] at hinfo'
    cases hinfo'
    have hclassified' : Classified index info := ⟨observation, hinfo⟩
    have hdiagnostic := (signature_eq_iff hclassified' hclassified hkey).1 hsignature hkind
    rw [eq_crashInfo hinfo ((kind_congr hclassified' hclassified hkey).trans hkind)] at hdiagnostic
    exact hdiagnostic
  · intro hdiagnostic
    obtain ⟨hlength, hprobed⟩ := h.taken _ h.mem_evidence
    refine ⟨hlength, ?_, ?_⟩
    · rw [htestcase]
      apply hprobed
      intro observation hobservation
      obtain ⟨info, hinfo, -⟩ := hconfirms observation hobservation
      exact (classify_cases hinfo).1
    · intro observation hobservation
      obtain ⟨info, hinfo, hkey⟩ := hconfirms observation hobservation
      have hclassified' : Classified index info := ⟨observation, hinfo⟩
      have hsignature : info.signature = outcome.candidate.info.signature := by
        rw [signature_eq_iff hclassified' hclassified hkey]
        intro hkind
        rw [eq_crashInfo hinfo ((kind_congr hclassified' hclassified hkey).trans hkind)]
        exact hdiagnostic hkind observation hobservation
      refine ⟨info, hinfo, hsignature, ?_⟩
      rw [hevidence]
      exact causeEvidence_congr hclassified' hclassified hkey hsignature

/-- **Confirmation is sound** exactly when no crash candidate meets a round of crashes of its oracle with
other diagnostics. -/
theorem sound_iff {campaign : CampaignState} (h : Reached u abi index campaign) (world : World) (log : Log) :
    let result := (runConfirmation u abi index world campaign).run log
    Sound index result.2 result.1.2 ↔ SameDiagnostics index result.1.2 := by
  intro result
  obtain ⟨-, hfiled, htold⟩ := (@runConfirmation_spec u abi index world campaign h.filed log).run
  have hclassified : ∀ outcome ∈ result.1.2, Classified index outcome.candidate.info := fun outcome houtcome =>
    hfiled.classified _ (List.mem_map_of_mem houtcome)
  constructor
  · intro hsound outcome houtcome hkind round hround hcrashes
    have htold' := htold outcome houtcome
    have hkeys : ∀ observation ∈ round, ∃ info, classify observation index = some info ∧
        info.candidateKey = outcome.candidate.info.candidateKey := by
      intro observation hobservation
      obtain ⟨info, hinfo, hkind', horacle⟩ := hcrashes observation hobservation
      exact ⟨info, hinfo, crash_key ⟨observation, hinfo⟩ (hclassified outcome houtcome) hkind' hkind horacle⟩
    have hsome := (@confirm_isSome_iff u abi index _ _ (htold'.taken round hround).1).2 hkeys
    have hevidence := htold'.only round hround hsome
    rw [hevidence, ← htold'.finding_eq] at hsome
    obtain ⟨finding, hfinding⟩ := Option.isSome_iff_exists.1 hsome
    rw [hevidence]
    exact (reproduced_iff htold' (hclassified outcome houtcome) hfinding).1
      (hsound.reproduced outcome houtcome finding hfinding) hkind
  · intro hdiagnostics
    have hreproduced : ∀ outcome ∈ result.1.2, ∀ finding, outcome.finding = some finding →
        Reproduced index result.2 outcome.candidate finding outcome.evidence := by
      intro outcome houtcome finding hfinding
      have htold' := htold outcome houtcome
      rw [reproduced_iff htold' (hclassified outcome houtcome) hfinding]
      intro hkind
      apply hdiagnostics outcome houtcome hkind _ htold'.mem_evidence
      intro observation hobservation
      obtain ⟨info, hinfo, hkey⟩ := htold'.confirms hfinding observation hobservation
      exact ⟨info, hinfo, (kind_congr ⟨observation, hinfo⟩ (hclassified outcome houtcome) hkey).trans hkind,
        congrArg (fun k => k.1) hkey⟩
    refine ⟨hreproduced, ?_⟩
    have hdistinct := hfiled.distinct
    rw [List.map_map, List.Nodup, List.pairwise_map] at hdistinct
    apply hdistinct.imp_of_mem
    intro outcome outcome' houtcome houtcome' hne hsome hsome' observation hobservation observation' hobservation'
    obtain ⟨finding, hfinding⟩ := Option.isSome_iff_exists.1 hsome
    obtain ⟨finding', hfinding'⟩ := Option.isSome_iff_exists.1 hsome'
    obtain ⟨info, hinfo, hsignature, -⟩ :=
      (hreproduced outcome houtcome finding hfinding).same observation hobservation
    obtain ⟨info', hinfo', hsignature', -⟩ :=
      (hreproduced outcome' houtcome' finding' hfinding').same observation' hobservation'
    rw [hinfo, hinfo', Option.map_some, Option.map_some, hsignature, hsignature']
    intro heq
    exact hne (Option.some.inj heq)

end

/-! ## Two crashes of one kind -/

theorem isFieldName_of_mem_nil : ∀ p ∈ ([] ++ [] : List Param), isFieldName p.name = true :=
  List.forall_mem_nil _

theorem eq_of_mem_nil : ∀ p ∈ ([] ++ [] : List Param), ∀ q ∈ ([] ++ [] : List Param),
    eqIgnoreAsciiCase p.name q.name = true → p = q :=
  List.forall_mem_nil _

theorem no_stateFields : ([] : List Param) = [] := rfl

def noInputs : TargetAbi where
  kind := .function
  params := []
  stateFields := []
  fieldName := isFieldName_of_mem_nil
  oneName := eq_of_mem_nil
  nodup_params := List.nodup_nil
  nodup_stateFields := List.nodup_nil
  members := no_stateFields

/-- A crash that prints a line. -/
def crashWith (line : String) : Observation where
  timedOut := false
  stderr := line.toList
  crashed := true

def alwaysCrash (line : String) : World where
  observe _ _ := crashWith line
  inTime _ := true

def oneCrash : CampaignState where
  candidates := registerCandidate [] "x".toList (crashWith "Aborted") (crashInfo (crashWith "Aborted"))
  confirmed := []

/-- Another crash of the same oracle, with another diagnostic. -/
def twoCrashes : CampaignState where
  candidates := registerCandidate oneCrash.candidates "y".toList (crashWith "Killed")
    (crashInfo (crashWith "Killed"))
  confirmed := []

theorem reached_oneCrash : Reached asciiData noInputs ∅ oneCrash :=
  .register .start "x".toList (crashWith "Aborted") (by decide +kernel)

theorem reached_twoCrashes : Reached asciiData noInputs ∅ twoCrashes :=
  .register reached_oneCrash "y".toList (crashWith "Killed") (by decide +kernel)

theorem sound_oneCrash :
    let result := (runConfirmation asciiData noInputs ∅ (alwaysCrash "Aborted") oneCrash).run {}
    Sound ∅ result.2 result.1.2 := by
  apply (sound_iff reached_oneCrash (alwaysCrash "Aborted") {}).2
  have hdiagnostic : ∀ outcome ∈ ((runConfirmation asciiData noInputs ∅ (alwaysCrash "Aborted")
      oneCrash).run {}).1.2, ∀ round ∈ outcome.rounds, ∀ observation ∈ round,
      crashDiagnostic observation = outcome.candidate.info.diagnostic := by
    decide +kernel
  intro outcome houtcome _ round hround _ observation hobservation
  exact hdiagnostic outcome houtcome round hround observation hobservation

/-- Both candidates are confirmed where every probe ends with the first crash. -/
theorem not_sound_twoCrashes :
    Reached asciiData noInputs ∅ twoCrashes ∧
      let result := (runConfirmation asciiData noInputs ∅ (alwaysCrash "Aborted") twoCrashes).run {}
      ¬Sound ∅ result.2 result.1.2 := by
  refine ⟨reached_twoCrashes, ?_⟩
  intro result hsound
  have houtcomes : result.1.2.map (fun outcome => (outcome.evidence, outcome.finding.isSome)) =
      List.replicate 2 (List.replicate 3 (crashWith "Aborted"), true) := by decide +kernel
  have hpairwise : (result.1.2.map fun outcome => (outcome.evidence, outcome.finding.isSome)).Pairwise
      fun o o' => o.2 → o'.2 → ∀ observation ∈ o.1, ∀ observation' ∈ o'.1,
        (classify observation ∅).map Info.signature ≠ (classify observation' ∅).map Info.signature :=
    List.pairwise_map.2 hsound.distinct
  rw [houtcomes, List.replicate_succ, List.pairwise_cons] at hpairwise
  exact hpairwise.1 _ (List.mem_replicate.2 ⟨by decide, rfl⟩) rfl rfl (crashWith "Aborted") (by simp)
    (crashWith "Aborted") (by simp) rfl

end SemantiST.Campaign
