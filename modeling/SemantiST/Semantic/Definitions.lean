import SemantiST.Lib.Writes
import SemantiST.Semantic.Expression

/-!
# Definition chains

`semantic_target_context` (`fuzzer/semantic/observers.rs`) flattens the transfers on the way to a
target into one expression for each symbol, and the mutator evaluates expressions with them.  The
definitions forget the order of the assignments: the value found is that of the chain when each
definition that is unfolded is the one that reaches the place that reads it.
-/

namespace SemantiST.Semantic

open Lib

/-! ## Data -/

structure OperationTree where
  kind : Option Text := none
  targetSymbol : Option Text := none
  targetExpression : Option Expression := none
  valueExpression : Option Expression := none

structure ChainTransfer where
  writes : List Text := []
  operations : List OperationTree := []

/-- A call or an operation that the compiler could not model. -/
def OperationTree.unknownEffect (operation : OperationTree) : Bool :=
  operation.kind == some "call".toList || operation.kind == some "opaque".toList

/-- The keys of the symbols that a transfer assigns. -/
def ChainTransfer.assigned (transfer : ChainTransfer) : List Text :=
  transfer.operations.filterMap fun operation => operation.targetSymbol.map toAsciiUppercase

/-! ## The definitions -/

structure DefinitionScan where
  definitions : Definitions
  ambiguous : List Text
  unknown : ∀ key ∈ ambiguous, definitions[key]? = some none

theorem isSome_insert {m : Definitions} {key k : Text} {v : Option Expression}
    (h : key = k ∨ (m[k]?).isSome) : ((m.insert key v)[k]?).isSome := by
  rw [getElem?_insert_eq]
  split
  · rfl
  · rename_i hne
    exact h.resolve_left hne

theorem unknown_nullify {m : Definitions} {ambiguous : List Text} {key k : Text}
    (h : ∀ k ∈ ambiguous, m[k]? = some none) (hk : k ∈ key :: ambiguous) :
    (m.insert key none)[k]? = some none := by
  rw [getElem?_insert_eq]
  split
  · rfl
  · rename_i hne
    exact h k ((List.mem_cons.1 hk).resolve_left (Ne.symm hne))

theorem unknown_insert {m : Definitions} {ambiguous : List Text} {key k : Text} {v : Option Expression}
    (h : ∀ k ∈ ambiguous, m[k]? = some none) (hkey : ambiguous.contains key = false)
    (hk : k ∈ ambiguous) : (m.insert key v)[k]? = some none := by
  rw [getElem?_insert_eq, if_neg, h k hk]
  rintro rfl
  rw [List.contains_iff_mem.2 hk] at hkey
  cases hkey

/-- The null sentinel: a symbol whose value is not known. -/
def DefinitionScan.nullify (s : DefinitionScan) (key : Text) : DefinitionScan where
  definitions := s.definitions.insert key none
  ambiguous := key :: s.ambiguous
  unknown _ hk := unknown_nullify s.unknown hk

def DefinitionScan.define (s : DefinitionScan) (key : Text) (value : Option Expression) :
    DefinitionScan :=
  if hkey : s.ambiguous.contains key then s
  else
    match value with
    | none => s.nullify key
    | some expression =>
      if s.definitions.contains key then s.nullify key
      else
        { definitions := s.definitions.insert key (some expression)
          ambiguous := s.ambiguous
          unknown := fun _ hk => unknown_insert s.unknown (Bool.not_eq_true _ ▸ hkey) hk }

def DefinitionScan.operation (s : DefinitionScan) (operation : OperationTree) : DefinitionScan :=
  match operation.targetSymbol with
  | none => s
  | some symbol => s.define (toAsciiUppercase symbol) operation.valueExpression

/-- Calls write symbols that the operations do not assign. -/
def DefinitionScan.write (transfer : ChainTransfer) (s : DefinitionScan) (symbol : Text) :
    DefinitionScan :=
  let key := toAsciiUppercase symbol
  if transfer.operations.any OperationTree.unknownEffect || !transfer.assigned.contains key then
    s.nullify key
  else s

def DefinitionScan.transfer (s : DefinitionScan) (transfer : ChainTransfer) : DefinitionScan :=
  transfer.writes.foldl (DefinitionScan.write transfer)
    (transfer.operations.foldl DefinitionScan.operation s)

/-- The definitions `semantic_target_context` builds. -/
def valueDefinitions (chain : List ChainTransfer) : Definitions :=
  (chain.foldl DefinitionScan.transfer ⟨∅, [], by simp⟩).definitions

/-! ## The meaning of a chain -/

/-- What one operation does to the store. -/
inductive ChainEffect where
  | assign (key : Text) (target value : Option Expression)
  /-- Some symbols get values that the chain does not tell. -/
  | unknown (keys : List Text)

def ChainEffect.keys : ChainEffect → List Text
  | .assign key _ _ => [key]
  | .unknown keys => keys

/-- A symbol names a variable; without its program, a direct local of any program. -/
def denotes (key x : Text) : Bool := x == key || directLocal x == some key

/-- The target of an assignment is the variable itself, and not a part of it. -/
def isDirect (key : Text) (target : Option Expression) : Bool :=
  target.all fun expression => expressionVariable expression == some key

/-- An assignment evaluates its expression in the store it finds and converts the value to the type
of its target. -/
def chainWrites : Writes ChainEffect Text (Option ℤ) where
  touches effect x := effect.keys.any (denotes · x)
  value effect σ :=
    match effect with
    | .assign key target value =>
      if isDirect key target then
        (value.bind (Expression.value σ)).map (convert (target.bind Expression.typeName))
      else none
    | .unknown _ => none

def OperationTree.effects (transfer : ChainTransfer) (operation : OperationTree) : List ChainEffect :=
  (if operation.unknownEffect then [.unknown (transfer.writes.map toAsciiUppercase)] else []) ++
    (operation.targetSymbol.map fun symbol => ChainEffect.assign (toAsciiUppercase symbol)
      operation.targetExpression operation.valueExpression).toList

def ChainTransfer.effects (transfer : ChainTransfer) : List ChainEffect :=
  transfer.operations.flatMap (OperationTree.effects transfer) ++
    [.unknown ((transfer.writes.map toAsciiUppercase).filter fun key =>
      !transfer.assigned.contains key)]

/-- The effects of a chain, the last one first. -/
def chainHistory (chain : List ChainTransfer) : List ChainEffect :=
  (chain.flatMap ChainTransfer.effects).reverse

/-- **The store after the assignments of a chain.** -/
def execute (σ : Store) (chain : List ChainTransfer) : Store :=
  (chain.flatMap ChainTransfer.effects).foldl chainWrites.apply σ

/-- A store whose variables have the values that the records give them. -/
def StartsFrom (records : List StRecord) (σ : Store) : Prop :=
  ∀ x index record v, recordIndex records x = some index → records[index]? = some record →
    recordValue record = some v → σ x = some v

/-! ## What a chain writes is defined -/

section Defined

variable {s : DefinitionScan} {key k : Text}

theorem DefinitionScan.nullify_isSome (h : key = k ∨ (s.definitions[k]?).isSome) :
    ((s.nullify key).definitions[k]?).isSome := isSome_insert h

theorem DefinitionScan.define_isSome (value : Option Expression)
    (h : key = k ∨ (s.definitions[k]?).isSome) :
    ((s.define key value).definitions[k]?).isSome := by
  unfold DefinitionScan.define
  split
  · rename_i hambiguous
    rcases h with rfl | h
    · rw [s.unknown key (List.contains_iff_mem.1 hambiguous)]
      rfl
    · exact h
  · split
    · exact nullify_isSome h
    · split
      · exact nullify_isSome h
      · exact isSome_insert h

theorem DefinitionScan.operation_isSome (operation : OperationTree)
    (h : operation.targetSymbol.map toAsciiUppercase = some k ∨ (s.definitions[k]?).isSome) :
    ((s.operation operation).definitions[k]?).isSome := by
  unfold DefinitionScan.operation
  split
  · rename_i hnone
    rw [hnone] at h
    exact h.resolve_left (by simp)
  · rename_i symbol hsymbol
    rw [hsymbol] at h
    exact define_isSome _ (h.imp_left Option.some.inj)

theorem DefinitionScan.write_isSome {transfer : ChainTransfer} (symbol : Text)
    (h : (toAsciiUppercase symbol = k ∧ transfer.assigned.contains k = false) ∨
      (toAsciiUppercase symbol = k ∧ transfer.operations.any OperationTree.unknownEffect = true) ∨
      (s.definitions[k]?).isSome) :
    ((s.write transfer symbol).definitions[k]?).isSome := by
  unfold DefinitionScan.write
  simp only
  split
  · refine nullify_isSome ?_
    rcases h with ⟨hk, -⟩ | ⟨hk, -⟩ | h
    · exact .inl hk
    · exact .inl hk
    · exact .inr h
  · rename_i hnot
    rw [Bool.or_eq_true, not_or, Bool.not_eq_true, Bool.not_eq_true, Bool.not_eq_false'] at hnot
    rcases h with ⟨rfl, h⟩ | ⟨-, h⟩ | h
    · rw [hnot.2] at h
      cases h
    · rw [hnot.1] at h
      cases h
    · exact h

/-- A fold whose steps keep what is defined, and one of whose steps defines a key. -/
theorem foldl_isSome {α : Type} {f : DefinitionScan → α → DefinitionScan}
    (hkeep : ∀ s a, (s.definitions[k]?).isSome → ((f s a).definitions[k]?).isSome) {l : List α}
    (h : (∃ a ∈ l, ∀ s, ((f s a).definitions[k]?).isSome) ∨ (s.definitions[k]?).isSome) :
    ((l.foldl f s).definitions[k]?).isSome := by
  induction l generalizing s with
  | nil => exact h.resolve_left (by simp)
  | cons a l ih =>
    apply ih
    rcases h with ⟨a', ha', hdef⟩ | h
    · rcases List.mem_cons.1 ha' with rfl | hmem
      · exact .inr (hdef s)
      · exact .inl ⟨a', hmem, hdef⟩
    · exact .inr (hkeep s a h)

theorem DefinitionScan.transfer_isSome (transfer : ChainTransfer)
    (h : (∃ effect ∈ transfer.effects, k ∈ effect.keys) ∨ (s.definitions[k]?).isSome) :
    ((s.transfer transfer).definitions[k]?).isSome := by
  have hoperation : ∀ (s : DefinitionScan) a, (s.definitions[k]?).isSome →
      ((s.operation a).definitions[k]?).isSome := fun s a hs => operation_isSome a (.inr hs)
  have hwrite : ∀ (s : DefinitionScan) a, (s.definitions[k]?).isSome →
      ((s.write transfer a).definitions[k]?).isSome := fun s a hs => write_isSome a (.inr (.inr hs))
  unfold DefinitionScan.transfer
  rcases h with ⟨effect, heffect, hk⟩ | h
  · rcases List.mem_append.1 heffect with heffect | heffect
    · obtain ⟨operation, hop, heffect⟩ := List.mem_flatMap.1 heffect
      rcases List.mem_append.1 heffect with heffect | heffect
      · -- a call: the writes of its transfer are not known
        split at heffect
        · rename_i hunknown
          obtain rfl := List.mem_singleton.1 heffect
          obtain ⟨symbol, hsymbol, hupper⟩ := List.mem_map.1 hk
          refine foldl_isSome hwrite (.inl ⟨symbol, hsymbol, fun s => write_isSome symbol ?_⟩)
          exact .inr (.inl ⟨hupper, List.any_eq_true.2 ⟨operation, hop, hunknown⟩⟩)
        · cases heffect
      · -- an assignment
        obtain ⟨symbol, hsymbol, rfl⟩ : ∃ symbol, operation.targetSymbol = some symbol ∧
            ChainEffect.assign (toAsciiUppercase symbol) operation.targetExpression
              operation.valueExpression = effect := by
          simpa using heffect
        refine foldl_isSome hwrite (.inr (foldl_isSome hoperation (.inl ⟨operation, hop, fun s => ?_⟩)))
        refine operation_isSome operation (.inl ?_)
        rw [hsymbol, List.mem_singleton.1 hk]
        rfl
    · obtain rfl := List.mem_singleton.1 heffect
      obtain ⟨hmem, hnot⟩ := List.mem_filter.1 hk
      obtain ⟨symbol, hsymbol, hupper⟩ := List.mem_map.1 hmem
      rw [Bool.not_eq_true'] at hnot
      exact foldl_isSome hwrite
        (.inl ⟨symbol, hsymbol, fun s => write_isSome symbol (.inl ⟨hupper, hnot⟩)⟩)
  · exact foldl_isSome hwrite (.inr (foldl_isSome hoperation (.inr h)))

end Defined

/-- **What the chain writes has an entry among the definitions.** -/
theorem valueDefinitions_isSome {chain : List ChainTransfer} {effect : ChainEffect} {k : Text}
    (h : effect ∈ chainHistory chain) (hk : k ∈ effect.keys) :
    ((valueDefinitions chain)[k]?).isSome := by
  obtain ⟨transfer, hmem, heffect⟩ := List.mem_flatMap.1 (List.mem_reverse.1 h)
  refine foldl_isSome (fun s t hs => s.transfer_isSome t (.inr hs)) (.inl ⟨transfer, hmem, fun s => ?_⟩)
  exact s.transfer_isSome transfer (.inl ⟨effect, heffect, hk⟩)

theorem expressionDefinition_isSome {chain : List ChainTransfer} {effect : ChainEffect} {x : Text}
    (h : effect ∈ chainHistory chain) (hx : chainWrites.touches effect x = true) :
    (expressionDefinition x (valueDefinitions chain)).isSome := by
  obtain ⟨key, hkey, hdenotes⟩ := List.any_eq_true.1 hx
  have hsome := valueDefinitions_isSome h hkey
  unfold expressionDefinition
  rw [Option.orElse_eq_orElse, Option.orElse_eq_or]
  rcases Bool.or_eq_true .. ▸ hdenotes with heq | hlocal
  · rw [eq_of_beq heq, Option.isSome_or, hsome, Bool.true_or]
  · rw [eq_of_beq hlocal, Option.isSome_or, Option.bind_some, hsome, Bool.or_true]

/-! ## What is defined is assigned once -/

/-- A symbol stands for an expression, if for anything. -/
def DefinitionScan.Stands (s : DefinitionScan) (k : Text) (d : Expression) : Prop :=
  ∀ value, s.definitions[k]? = some value → value = some d

section Stands

variable {s : DefinitionScan} {key k : Text} {d : Expression}

theorem DefinitionScan.Stands.of_insert {s' : DefinitionScan} {value : Option Expression}
    (h : s'.Stands k d) (hinsert : s'.definitions = s.definitions.insert key value)
    (hkey : (s.definitions[key]?).isSome = false ∨ value ≠ some d) :
    s.Stands k d ∧ (key = k → value = some d) := by
  have hget := fun value' => h value'
  simp only [hinsert, getElem?_insert_eq] at hget
  by_cases hk : key = k
  · subst hk
    simp only [if_pos] at hget
    have hvalue := hget value rfl
    refine ⟨fun value' hvalue' => ?_, fun _ => hvalue⟩
    rw [hvalue'] at hkey
    exact absurd hvalue (hkey.resolve_left (by simp))
  · rw [if_neg (Ne.symm (Ne.symm hk))] at hget
    exact ⟨hget, fun heq => absurd heq hk⟩

theorem DefinitionScan.Stands.of_nullify (h : (s.nullify key).Stands k d) : s.Stands k d ∧ key ≠ k := by
  obtain ⟨hs, hkey⟩ := h.of_insert rfl (.inr (by simp))
  exact ⟨hs, fun heq => by cases hkey heq⟩

theorem DefinitionScan.Stands.of_define {value : Option Expression} (h : (s.define key value).Stands k d) :
    s.Stands k d ∧ (key = k → value = some d) := by
  unfold DefinitionScan.define at h
  split at h
  · rename_i hambiguous
    refine ⟨h, fun heq => ?_⟩
    cases h none (heq ▸ s.unknown key (List.contains_iff_mem.1 hambiguous))
  · split at h
    · exact ⟨h.of_nullify.1, fun heq => absurd heq h.of_nullify.2⟩
    · split at h
      · exact ⟨h.of_nullify.1, fun heq => absurd heq h.of_nullify.2⟩
      · rename_i hcontains
        refine h.of_insert rfl (.inl ?_)
        rw [Bool.not_eq_true] at hcontains
        simpa using hcontains

theorem DefinitionScan.Stands.of_operation {operation : OperationTree}
    (h : (s.operation operation).Stands k d) :
    s.Stands k d ∧ (operation.targetSymbol.map toAsciiUppercase = some k →
      operation.valueExpression = some d) := by
  unfold DefinitionScan.operation at h
  split at h
  · rename_i hnone
    exact ⟨h, fun hk => by rw [hnone] at hk; cases hk⟩
  · rename_i symbol hsymbol
    refine ⟨h.of_define.1, fun hk => h.of_define.2 ?_⟩
    rw [hsymbol] at hk
    exact Option.some.inj hk

theorem DefinitionScan.Stands.of_write {transfer : ChainTransfer} {symbol : Text}
    (h : (s.write transfer symbol).Stands k d) :
    s.Stands k d ∧ (toAsciiUppercase symbol = k →
      transfer.operations.any OperationTree.unknownEffect = false ∧ transfer.assigned.contains k = true) := by
  unfold DefinitionScan.write at h
  simp only at h
  split at h
  · exact ⟨h.of_nullify.1, fun heq => absurd heq h.of_nullify.2⟩
  · rename_i hnot
    rw [Bool.or_eq_true, not_or, Bool.not_eq_true, Bool.not_eq_true, Bool.not_eq_false'] at hnot
    exact ⟨h, fun heq => ⟨hnot.1, heq ▸ hnot.2⟩⟩

theorem DefinitionScan.Stands.of_foldl {α : Type} {f : DefinitionScan → α → DefinitionScan} {Q : α → Prop}
    (hstep : ∀ s a, (f s a).Stands k d → s.Stands k d ∧ Q a) {l : List α}
    (h : (l.foldl f s).Stands k d) : s.Stands k d ∧ ∀ a ∈ l, Q a := by
  induction l generalizing s with
  | nil => exact ⟨h, by simp⟩
  | cons a l ih =>
    obtain ⟨hs, hl⟩ := ih h
    obtain ⟨hs, ha⟩ := hstep s a hs
    exact ⟨hs, List.forall_mem_cons.2 ⟨ha, hl⟩⟩

theorem DefinitionScan.Stands.of_transfer {transfer : ChainTransfer} (h : (s.transfer transfer).Stands k d) :
    s.Stands k d ∧ ∀ effect ∈ transfer.effects, k ∈ effect.keys →
      ∃ target, effect = .assign k target (some d) := by
  obtain ⟨h, hwrites⟩ := DefinitionScan.Stands.of_foldl (f := DefinitionScan.write transfer)
    (fun _ _ hs => hs.of_write) h
  obtain ⟨h, hoperations⟩ := DefinitionScan.Stands.of_foldl (f := DefinitionScan.operation)
    (fun _ _ hs => hs.of_operation) h
  have hwritten : k ∈ transfer.writes.map toAsciiUppercase →
      transfer.operations.any OperationTree.unknownEffect = false ∧ transfer.assigned.contains k = true := by
    intro hk
    obtain ⟨symbol, hsymbol, hupper⟩ := List.mem_map.1 hk
    exact hwrites symbol hsymbol hupper
  refine ⟨h, fun effect heffect hk => ?_⟩
  rcases List.mem_append.1 heffect with heffect | heffect
  · obtain ⟨operation, hop, heffect⟩ := List.mem_flatMap.1 heffect
    rcases List.mem_append.1 heffect with heffect | heffect
    · -- a call: what its transfer writes is not known
      split at heffect
      · rename_i hunknown
        obtain rfl := List.mem_singleton.1 heffect
        rw [List.any_eq_true.2 ⟨operation, hop, hunknown⟩] at hwritten
        cases (hwritten hk).1
      · cases heffect
    · obtain ⟨symbol, hsymbol, rfl⟩ : ∃ symbol, operation.targetSymbol = some symbol ∧
          ChainEffect.assign (toAsciiUppercase symbol) operation.targetExpression
            operation.valueExpression = effect := by
        simpa using heffect
      obtain rfl := List.mem_singleton.1 hk
      refine ⟨operation.targetExpression, ?_⟩
      rw [hoperations operation hop (by rw [hsymbol, Option.map_some])]
  · obtain rfl := List.mem_singleton.1 heffect
    obtain ⟨hmem, hnot⟩ := List.mem_filter.1 hk
    rw [(hwritten hmem).2] at hnot
    cases hnot

end Stands

/-- **The expression of a symbol is what every assignment to it assigns**, and nothing else writes it. -/
theorem assign_of_valueDefinitions {chain : List ChainTransfer} {k : Text} {d : Expression}
    (h : (valueDefinitions chain)[k]? = some (some d)) {effect : ChainEffect}
    (heffect : effect ∈ chainHistory chain) (hk : k ∈ effect.keys) :
    ∃ target, effect = .assign k target (some d) := by
  obtain ⟨transfer, hmem, heffect⟩ := List.mem_flatMap.1 (List.mem_reverse.1 heffect)
  have hstands : (chain.foldl DefinitionScan.transfer ⟨∅, [], by simp⟩).Stands k d := by
    intro value hvalue
    exact Option.some.inj (hvalue.symm.trans h)
  exact (DefinitionScan.Stands.of_foldl (f := DefinitionScan.transfer) (fun _ _ hs => hs.of_transfer) hstands).2
    transfer hmem effect heffect hk

/-- No variable has a definition under its name and another one without its program. -/
def Unaliased (definitions : Definitions) : Prop :=
  ∀ x name, directLocal x = some name → (definitions[x]?).isSome → definitions[name]? = none

theorem assign_of_expressionDefinition {chain : List ChainTransfer} (hunaliased : Unaliased (valueDefinitions chain))
    {x : Text} {d : Expression} (h : expressionDefinition x (valueDefinitions chain) = some (some d))
    {effect : ChainEffect} (heffect : effect ∈ chainHistory chain)
    (hx : chainWrites.touches effect x = true) : ∃ key target, effect = .assign key target (some d) := by
  obtain ⟨key, hkey, hdenotes⟩ := List.any_eq_true.1 hx
  have hsome := valueDefinitions_isSome heffect hkey
  unfold expressionDefinition at h
  rw [Option.orElse_eq_orElse, Option.orElse_eq_or] at h
  have hdefinition : (valueDefinitions chain)[key]? = some (some d) := by
    obtain ⟨value, hvalue⟩ := Option.isSome_iff_exists.1 hsome
    rcases Bool.or_eq_true .. ▸ hdenotes with heq | hlocal
    · rw [eq_of_beq heq, hvalue, Option.some_or] at h
      rw [hvalue, h]
    · rw [eq_of_beq hlocal, Option.bind_some] at h
      cases hname : (valueDefinitions chain)[x]? with
      | some value' =>
        rw [hunaliased x key (eq_of_beq hlocal) (by rw [hname]; rfl)] at hvalue
        cases hvalue
      | none => rwa [hname, Option.none_or] at h
  obtain ⟨target, rfl⟩ := assign_of_valueDefinitions hdefinition heffect hkey
  exact ⟨key, target, rfl⟩

/-! ## Reaching definitions -/

/-- The expressions the evaluation reads, each with the effects that come before the place that
reads it. -/
inductive Use (records : List StRecord) (definitions : Definitions) (start : List ChainEffect)
    (goal : Expression) : List ChainEffect → Expression → Prop where
  | goal : Use records definitions start goal start goal
  | operand {history : List ChainEffect} {e a : Expression}
      (h : Use records definitions start goal history e) (hvariable : expressionVariable e = none)
      (hliteral : literalInteger e.kind = none) (ha : a ∈ e.operands) :
      Use records definitions start goal history a
  | unfold {history older : List ChainEffect} {effect : ChainEffect} {e d : Expression} {x : Text}
      (h : Use records definitions start goal history e) (hx : expressionVariable e = some x)
      (hrecord : recordIndex records x = none)
      (hd : expressionDefinition x definitions = some (some d))
      (hlast : chainWrites.last x history = some (effect, older)) :
      Use records definitions start goal older d

/-- The text of a string literal is not a number. -/
def isStringLiteral : ExpressionKind → Bool
  | .literal (.string _) | .literal (.wideString _) => true
  | _ => false

/-- **Each definition that is unfolded reaches the place that reads it**: it is the last assignment
to its variable before that place, and it assigns the variable itself.  No string is read as a number. -/
def DefinitionsReach (records : List StRecord) (chain : List ChainTransfer) (goal : Expression) : Prop :=
  ∀ history e, Use records (valueDefinitions chain) (chainHistory chain) goal history e →
    isStringLiteral e.kind = false ∧
    ∀ x d, expressionVariable e = some x → recordIndex records x = none →
      expressionDefinition x (valueDefinitions chain) = some (some d) →
      ∃ key target older,
        chainWrites.last x history = some (.assign key target (some d), older) ∧
        isDirect key target = true

/-- What is assigned by the definitions that are unfolded fits the types of their variables. -/
def ValuesFit (records : List StRecord) (chain : List ChainTransfer) (goal : Expression) (σ : Store) : Prop :=
  ∀ history e, Use records (valueDefinitions chain) (chainHistory chain) goal history e →
    ∀ x key target d older v, expressionVariable e = some x → recordIndex records x = none →
      chainWrites.last x history = some (.assign key target (some d), older) →
      d.value (chainWrites.after σ older) = some v → fitsType (target.bind Expression.typeName) v = true

section Soundness

variable {records : List StRecord} {chain : List ChainTransfer} {goal e : Expression} {σ : Store}
  {history : List ChainEffect}

theorem Use.suffix {start : List ChainEffect} {definitions : Definitions}
    (h : Use records definitions start goal history e) : history <:+ start := by
  induction h with
  | goal => exact List.suffix_refl _
  | operand _ _ _ _ ih => exact ih
  | unfold _ _ _ _ hlast ih =>
    exact (List.suffix_cons _ _).trans ((chainWrites.last_suffix hlast).trans ih)

/-- A variable without a definition keeps the value it starts with. -/
theorem after_of_undefined {x : Text} (hsuffix : history <:+ chainHistory chain)
    (hx : expressionDefinition x (valueDefinitions chain) = none) :
    chainWrites.after σ history x = σ x := by
  refine chainWrites.after_of_untouched fun effect heffect => ?_
  rw [← Bool.not_eq_true]
  intro htouches
  have hsome := expressionDefinition_isSome (hsuffix.subset heffect) htouches
  rw [hx] at hsome
  cases hsome

theorem value_of_record {x : Text} {index : ℕ} {v : ℤ} (hσ : StartsFrom records σ)
    (hsuffix : history <:+ chainHistory chain) (hindex : recordIndex records x = some index)
    (h : (if seedVariableWasWritten x (valueDefinitions chain) then none
      else records[index]?.bind recordValue) = some v) :
    chainWrites.after σ history x = some v := by
  split at h
  · cases h
  · rename_i hwritten
    obtain ⟨record, hrecord, hv⟩ := Option.bind_eq_some_iff.1 h
    rw [after_of_undefined hsuffix (by simpa [seedVariableWasWritten] using hwritten)]
    exact hσ x index record v hindex hrecord hv

theorem value_of_literalInteger {v : ℤ} (hfloat : e.typeName.any isFloatType = false)
    (hstring : isStringLiteral e.kind = false) (h : literalInteger e.kind = some (some v)) :
    e.value σ = some v := by
  obtain ⟨l, hl⟩ : ∃ l, e.kind = .literal l := by
    cases hkind : e.kind with
    | literal l => exact ⟨l, rfl⟩
    | _ =>
      rw [hkind] at h
      cases h
  rw [e.value_literal hfloat hl]
  rw [hl] at h hstring
  cases l with
  | integer raw => exact Option.some.inj h
  | boolean b => exact Option.some.inj h
  | string raw | wideString raw => cases hstring
  | real raw => cases h
  | _ => cases h

theorem literalInteger_of_variable {x : Text} (hx : expressionVariable e = some x) :
    literalInteger e.kind = none := by
  unfold expressionVariable at hx
  cases hkind : e.kind with
  | literal l =>
    rw [hkind] at hx
    cases hx
  | _ => rfl

/-- The evaluation agrees with the chain at every place that reads an expression. -/
theorem within_sound (hσ : StartsFrom records σ) (hreach : DefinitionsReach records chain goal)
    (hfit : ValuesFit records chain goal σ) {levels : ℕ} {v : ℤ}
    (huse : Use records (valueDefinitions chain) (chainHistory chain) goal history e)
    (h : integerExpressionWithin records (valueDefinitions chain) levels e = some v) :
    e.value (chainWrites.after σ history) = some v := by
  induction levels generalizing history e v with
  | zero => cases h
  | succ levels ih =>
    obtain ⟨hstring, hdefs⟩ := hreach history e huse
    unfold integerExpressionWithin at h
    cases hfloat : e.typeName.any isFloatType with
    | true =>
      rw [hfloat, if_pos rfl] at h
      cases h
    | false =>
      rw [hfloat, if_neg Bool.false_ne_true] at h
      cases hx : expressionVariable e with
      | some x =>
        rw [e.value_variable hfloat hx]
        simp only [hx, Option.bind_some] at h
        cases hindex : recordIndex records x with
        | some index =>
          simp only [hindex, Option.map_some] at h
          exact value_of_record hσ huse.suffix hindex h
        | none =>
          -- the variable stands for the definition that reaches it
          simp only [hindex, Option.map_none, literalInteger_of_variable hx] at h
          obtain ⟨definition, hdefinition, h⟩ := Option.bind_eq_some_iff.1 h
          obtain ⟨d, rfl, h⟩ := Option.bind_eq_some_iff.1 h
          obtain ⟨key, target, older, hlast, hdirect⟩ := hdefs x d hx hindex hdefinition
          have hd := ih (huse.unfold hx hindex hdefinition hlast) h
          have hfits := hfit history e huse x key target d older v hx hindex hlast hd
          rw [chainWrites.after_of_last hlast]
          simp only [chainWrites, hdirect, if_pos, Option.bind_some] at hd ⊢
          rw [hd, Option.map_some, convert_of_fitsType hfits]
      | none =>
        simp only [hx, Option.bind_none] at h
        cases hliteral : literalInteger e.kind with
        | some value =>
          simp only [hliteral] at h
          subst h
          exact value_of_literalInteger hfloat hstring hliteral
        | none =>
          simp only [hliteral] at h
          split at h
          · rename_i a hoperands
            have ha : a ∈ e.operands := by rw [hoperands]; exact List.mem_singleton_self a
            obtain ⟨va, hva, h⟩ := Option.bind_eq_some_iff.1 h
            obtain ⟨operator, hoperator, h⟩ := Option.bind_eq_some_iff.1 h
            obtain ⟨r, hr, h⟩ := Option.bind_eq_some_iff.1 h
            split at h
            · rename_i hfits
              obtain rfl := Option.some.inj h
              rw [e.value_unary hfloat hx hoperator hoperands, ih (huse.operand hx hliteral ha) hva,
                Option.bind_some, unaryWide_eq_some hr, Option.map_some, convert_of_fitsType hfits]
            · cases h
          · rename_i a b hoperands
            have ha : a ∈ e.operands := by simp [hoperands]
            have hb : b ∈ e.operands := by simp [hoperands]
            obtain ⟨va, hva, h⟩ := Option.bind_eq_some_iff.1 h
            obtain ⟨vb, hvb, h⟩ := Option.bind_eq_some_iff.1 h
            obtain ⟨operator, hoperator, h⟩ := Option.bind_eq_some_iff.1 h
            obtain ⟨r, hr, h⟩ := Option.bind_eq_some_iff.1 h
            split at h
            · rename_i hfits
              obtain rfl := Option.some.inj h
              rw [e.value_binary hfloat hx hoperator hoperands, ih (huse.operand hx hliteral ha) hva,
                Option.bind_some, ih (huse.operand hx hliteral hb) hvb, Option.bind_some, binaryWide_eq_some hr,
                Option.map_some, convert_of_fitsType hfits]
            · cases h
          · cases h

/-! ### Necessity -/

/-- What the records tell, and nothing else. -/
def recordedStore (records : List StRecord) : Store := fun x =>
  (recordIndex records x).bind fun index => records[index]?.bind recordValue

theorem startsFrom_recordedStore : StartsFrom records (recordedStore records) := by
  intro x index record v hindex hrecord hv
  rw [recordedStore, hindex, Option.bind_some, hrecord, Option.bind_some, hv]

variable {definitions : Definitions} {levels : ℕ}

/-- An expression that has a value has operands that have one, in the evaluation and in a store. -/
theorem operand_isSome {a : Expression} (hvariable : expressionVariable e = none)
    (hliteral : literalInteger e.kind = none) (ha : a ∈ e.operands)
    (h : (integerExpressionWithin records definitions levels e).isSome) :
    (∃ levels, (integerExpressionWithin records definitions levels a).isSome) ∧
      ((e.value σ).isSome → (a.value σ).isSome) := by
  obtain ⟨v, h⟩ := Option.isSome_iff_exists.1 h
  cases levels with
  | zero => cases h
  | succ levels =>
    unfold integerExpressionWithin at h
    cases hfloat : e.typeName.any isFloatType with
    | true =>
      rw [hfloat, if_pos rfl] at h
      cases h
    | false =>
      rw [hfloat, if_neg Bool.false_ne_true] at h
      simp only [hvariable, Option.bind_none, hliteral] at h
      split at h
      · rename_i b hoperands
        obtain ⟨vb, hvb, h⟩ := Option.bind_eq_some_iff.1 h
        obtain ⟨operator, hoperator, -⟩ := Option.bind_eq_some_iff.1 h
        rw [hoperands, List.mem_singleton] at ha
        subst ha
        refine ⟨⟨levels, by rw [hvb]; rfl⟩, fun hvalue => ?_⟩
        rw [e.value_unary hfloat hvariable hoperator hoperands] at hvalue
        exact Option.isSome_of_isSome_bind hvalue
      · rename_i b c hoperands
        obtain ⟨vb, hvb, h⟩ := Option.bind_eq_some_iff.1 h
        obtain ⟨vc, hvc, h⟩ := Option.bind_eq_some_iff.1 h
        obtain ⟨operator, hoperator, -⟩ := Option.bind_eq_some_iff.1 h
        rw [e.value_binary hfloat hvariable hoperator hoperands]
        rw [hoperands, List.mem_cons, List.mem_singleton] at ha
        rcases ha with rfl | rfl
        · exact ⟨⟨levels, by rw [hvb]; rfl⟩, fun hvalue => Option.isSome_of_isSome_bind hvalue⟩
        · refine ⟨⟨levels, by rw [hvc]; rfl⟩, fun hvalue => ?_⟩
          obtain ⟨w, hw⟩ := Option.isSome_iff_exists.1 hvalue
          obtain ⟨_, -, hw⟩ := Option.bind_eq_some_iff.1 hw
          exact Option.isSome_of_isSome_bind (by rw [hw]; rfl)
      · cases h

/-- A variable that has a value has a definition that has one. -/
theorem definition_isSome {x : Text} {d : Expression} (hx : expressionVariable e = some x)
    (hrecord : recordIndex records x = none) (hd : expressionDefinition x definitions = some (some d))
    (h : (integerExpressionWithin records definitions levels e).isSome) :
    e.typeName.any isFloatType = false ∧
      ∃ levels, (integerExpressionWithin records definitions levels d).isSome := by
  cases levels with
  | zero => cases h
  | succ levels =>
    unfold integerExpressionWithin at h
    cases hfloat : e.typeName.any isFloatType with
    | true =>
      rw [hfloat, if_pos rfl] at h
      cases h
    | false =>
      rw [hfloat, if_neg Bool.false_ne_true] at h
      simp only [hx, Option.bind_some, hrecord, Option.map_none, literalInteger_of_variable hx, hd] at h
      exact ⟨rfl, levels, h⟩

/-- A variable that no record gives has the value that was assigned to it last. -/
theorem last_of_isSome (hunaliased : Unaliased (valueDefinitions chain)) (hsuffix : history <:+ chainHistory chain)
    {x : Text} {d : Expression} (hrecord : recordIndex records x = none)
    (hd : expressionDefinition x (valueDefinitions chain) = some (some d))
    (h : (chainWrites.after (recordedStore records) history x).isSome) :
    ∃ key target older, chainWrites.last x history = some (.assign key target (some d), older) ∧
      isDirect key target = true ∧ (d.value (chainWrites.after (recordedStore records) older)).isSome := by
  cases hlast : chainWrites.last x history with
  | none =>
    rw [chainWrites.after_of_untouched (chainWrites.untouched_of_last hlast), recordedStore, hrecord] at h
    cases h
  | some found =>
    obtain ⟨effect, older⟩ := found
    obtain ⟨key, target, rfl⟩ := assign_of_expressionDefinition hunaliased hd
      (hsuffix.subset ((chainWrites.last_suffix hlast).subset List.mem_cons_self))
      (chainWrites.touches_of_last hlast)
    rw [chainWrites.after_of_last hlast] at h
    simp only [chainWrites] at h
    split at h
    · rename_i hdirect
      rw [Option.isSome_map, Option.bind_some] at h
      exact ⟨key, target, older, rfl, hdirect, h⟩
    · cases h

/-- What the evaluation reads has a value at the place that reads it, where the goal has one after the
chain. -/
theorem Use.isSome (hunaliased : Unaliased (valueDefinitions chain))
    (h : (integerExpressionWithin records (valueDefinitions chain) levels goal).isSome)
    (hgoal : (goal.value (chainWrites.after (recordedStore records) (chainHistory chain))).isSome)
    (huse : Use records (valueDefinitions chain) (chainHistory chain) goal history e) :
    (∃ levels, (integerExpressionWithin records (valueDefinitions chain) levels e).isSome) ∧
      (e.value (chainWrites.after (recordedStore records) history)).isSome := by
  induction huse with
  | goal => exact ⟨⟨levels, h⟩, hgoal⟩
  | operand _ hvariable hliteral ha ih =>
    obtain ⟨⟨levels, hlevels⟩, hvalue⟩ := ih
    obtain ⟨hlevels', hvalue'⟩ := operand_isSome hvariable hliteral ha hlevels
    exact ⟨hlevels', hvalue' hvalue⟩
  | unfold huse hx hrecord hd hlast ih =>
    obtain ⟨⟨levels, hlevels⟩, hvalue⟩ := ih
    obtain ⟨hfloat, hlevels'⟩ := definition_isSome hx hrecord hd hlevels
    rw [Expression.value_variable hfloat hx] at hvalue
    obtain ⟨key, target, older, hlast', -, hvalue'⟩ := last_of_isSome hunaliased huse.suffix hrecord hd hvalue
    rw [hlast, Option.some.injEq, Prod.mk.injEq] at hlast'
    obtain ⟨-, rfl⟩ := hlast'
    exact ⟨hlevels', hvalue'⟩

theorem value_of_stringLiteral (h : isStringLiteral e.kind = true) : e.value σ = none := by
  obtain ⟨l, hl⟩ : ∃ l, e.kind = .literal l := by
    cases hkind : e.kind with
    | literal l => exact ⟨l, rfl⟩
    | _ =>
      rw [hkind] at h
      cases h
  cases hfloat : e.typeName.any isFloatType with
  | true =>
    rcases e with ⟨kind, typeName, reads, operands⟩
    rw [Expression.value.eq_def]
    simp only
    rw [if_pos hfloat]
  | false =>
    rw [Expression.value_literal hfloat hl]
    rw [hl] at h
    cases l with
    | string raw | wideString raw => rfl
    | _ => cases h

end Soundness

/-! ## A redefinition after the use -/

def intVariable (name : Text) : Expression where
  kind := .variable name
  typeName := some "INT".toList
  reads := [name]

def intLiteral (raw : Text) : Expression where
  kind := .literal (.integer raw)
  typeName := some "INT".toList

def increment (name : Text) : Expression where
  kind := .binary "+".toList
  typeName := some "INT".toList
  reads := [name]
  operands := [intVariable name, intLiteral "1".toList]

def assignment (name : Text) (value : Expression) : OperationTree where
  kind := some "assign".toList
  targetSymbol := some name
  targetExpression := some (intVariable name)
  valueExpression := some value

/-- `X := A + 1; A := 5`. -/
def staleChain : List ChainTransfer :=
  [{ writes := ["P.A".toList, "P.X".toList]
     operations := [assignment "P.X".toList (increment "P.A".toList),
       assignment "P.A".toList (intLiteral "5".toList)] }]

/-- `X := A + 1`, where a record gives `A`. -/
def freshChain : List ChainTransfer :=
  [{ writes := ["P.X".toList]
     operations := [assignment "P.X".toList (increment "P.A".toList)] }]

def recordA : StRecord := ⟨"A".toList, "INT".toList, "1".toList⟩

theorem expressionDefinition_freshChain : expressionDefinition "P.X".toList (valueDefinitions freshChain) =
    some (some (increment "P.A".toList)) := rfl

theorem last_freshChain : chainWrites.last "P.X".toList (chainHistory freshChain) =
    some (.assign "P.X".toList (some (intVariable "P.X".toList)) (some (increment "P.A".toList)), []) := rfl

/-- The places that read an expression when `X` is evaluated. -/
theorem use_freshChain {history : List ChainEffect} {e : Expression}
    (huse : Use [recordA] (valueDefinitions freshChain) (chainHistory freshChain) (intVariable "P.X".toList)
      history e) :
    (history = chainHistory freshChain ∧ e = intVariable "P.X".toList) ∨
      (history = [] ∧ (e = increment "P.A".toList ∨ e = intVariable "P.A".toList ∨
        e = intLiteral "1".toList)) := by
  have hx : expressionVariable (intVariable "P.X".toList) = some "P.X".toList := rfl
  have ha : expressionVariable (intVariable "P.A".toList) = some "P.A".toList := rfl
  have hrecorded : recordIndex [recordA] "P.A".toList = some 0 := by decide +kernel
  induction huse with
  | goal => exact .inl ⟨rfl, rfl⟩
  | operand _ _ _ hmem ih =>
    rcases ih with ⟨-, rfl⟩ | ⟨rfl, rfl | rfl | rfl⟩
    · cases hmem
    · rcases List.mem_cons.1 hmem with rfl | hmem
      · exact .inr ⟨rfl, .inr (.inl rfl)⟩
      · exact .inr ⟨rfl, .inr (.inr (List.mem_singleton.1 hmem))⟩
    · cases hmem
    · cases hmem
  | unfold _ hvariable hrecord hd hl ih =>
    rcases ih with ⟨rfl, rfl⟩ | ⟨rfl, rfl | rfl | rfl⟩
    · obtain rfl := Option.some.inj (hx.symm.trans hvariable)
      obtain rfl := Option.some.inj (Option.some.inj (expressionDefinition_freshChain.symm.trans hd))
      rw [last_freshChain, Option.some.injEq, Prod.mk.injEq] at hl
      exact .inr ⟨hl.2.symm, .inl rfl⟩
    · cases hvariable
    · obtain rfl := Option.some.inj (ha.symm.trans hvariable)
      rw [hrecorded] at hrecord
      cases hrecord
    · cases hvariable

theorem reach_freshChain : DefinitionsReach [recordA] freshChain (intVariable "P.X".toList) := by
  have hx : expressionVariable (intVariable "P.X".toList) = some "P.X".toList := rfl
  have ha : expressionVariable (intVariable "P.A".toList) = some "P.A".toList := rfl
  have hrecorded : recordIndex [recordA] "P.A".toList = some 0 := by decide +kernel
  intro history e huse
  rcases use_freshChain huse with ⟨rfl, rfl⟩ | ⟨rfl, rfl | rfl | rfl⟩
  · refine ⟨rfl, fun x d hvariable _ hd => ?_⟩
    obtain rfl := Option.some.inj (hx.symm.trans hvariable)
    obtain rfl := Option.some.inj (Option.some.inj (expressionDefinition_freshChain.symm.trans hd))
    exact ⟨_, _, _, last_freshChain, by decide +kernel⟩
  · exact ⟨rfl, fun x d hvariable => by cases hvariable⟩
  · refine ⟨rfl, fun x d hvariable hrecord _ => ?_⟩
    obtain rfl := Option.some.inj (ha.symm.trans hvariable)
    rw [hrecorded] at hrecord
    cases hrecord
  · exact ⟨rfl, fun x d hvariable => by cases hvariable⟩

theorem fit_freshChain {σ : Store} (hσ : StartsFrom [recordA] σ) :
    ValuesFit [recordA] freshChain (intVariable "P.X".toList) σ := by
  have ha : σ "P.A".toList = some 1 := hσ "P.A".toList 0 recordA 1 (by decide +kernel) rfl (by decide +kernel)
  intro history e huse x key target d older v hvariable hrecord hlast hv
  rcases use_freshChain huse with ⟨rfl, rfl⟩ | ⟨rfl, rfl | rfl | rfl⟩
  · obtain rfl : "P.X".toList = x := Option.some.inj hvariable
    rw [last_freshChain, Option.some.injEq, Prod.mk.injEq, ChainEffect.assign.injEq] at hlast
    obtain ⟨⟨rfl, rfl, hd⟩, rfl⟩ := hlast
    obtain rfl := Option.some.inj hd
    have htwo : (increment "P.A".toList).value σ = some 2 := by
      have hone : (intLiteral "1".toList).value σ = some 1 :=
        (Expression.value_literal (by decide +kernel) rfl).trans (by decide +kernel)
      have hvariable : (intVariable "P.A".toList).value σ = some 1 :=
        (Expression.value_variable (by decide +kernel) rfl).trans ha
      rw [Expression.value_binary (by decide +kernel) rfl rfl rfl, hone, hvariable]
      decide +kernel
    obtain rfl := Option.some.inj (htwo.symm.trans hv)
    decide +kernel
  · cases hvariable
  · cases hlast
  · cases hvariable

theorem unaliased_freshChain : Unaliased (valueDefinitions freshChain) := by
  intro x name hname hx
  have hkey : x = "P.X".toList := by
    by_contra hne
    have hnone : (valueDefinitions freshChain)[x]? = none := by
      show ((∅ : Definitions).insert "P.X".toList _)[x]? = none
      rw [getElem?_insert_eq, if_neg (Ne.symm hne)]
      rfl
    rw [hnone] at hx
    cases hx
  subst hkey
  obtain rfl : "X".toList = name := Option.some.inj hname
  decide +kernel

end SemantiST.Semantic
