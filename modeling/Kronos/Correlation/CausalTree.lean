import Mathlib.Logic.Relation
import Kronos.Lib.Slots
import Kronos.Correlation.CorrelatingHandler

/-!
# Chains down the causal tree

The messages of a run form a forest: a node's parent is the message whose
handling bore it. Every step keeps the local rule that a node carries its
parent's chain and its parent's identifier, and that the closure of a handling
holds exactly that pair; the chain of the root then follows along the tree.
-/
namespace Kronos.Correlation
open Kronos.EventSourcing Kronos.UnitOfWork Kronos.Lib.Transition Kronos.Lib.Slots

variable {P : Type}

/-- The correlation id of a message, its identifier where it has none of its own. -/
def chainId (message : Message P) : String :=
  message.metadata.textOr "correlationId" message.identifier

/-- The message at `parent` was being handled when the one at `child` was born. -/
def Bore (world : World P) (parent child : ℕ) : Prop :=
  ∃ node, world.nodes[child]? = some node ∧ node.parent = some parent

/-- The metadata arguments of a call. -/
def Verb.provided : Verb P → List (Option Metadata)
  | .send _ _ metadata => [metadata]
  | .query _ _ metadata => [metadata]
  | .append (.single _ _ metadata) => [metadata]
  | .append (.batch entries) => entries.map fun entry => entry.2.2
  | .schedule _ _ _ metadata => [metadata]
  | .scheduleAfter _ _ _ metadata => [metadata]

/-- A caller that names neither correlation key. -/
def namesNeither : Option Metadata → Bool
  | none => true
  | some metadata => (metadata "correlationId").isNone && (metadata "causationId").isNone

/-- No caller names a correlation key. -/
def Action.namesNeither : Action P → Bool
  | .call _ verb _ => verb.provided.all Correlation.namesNeither
  | _ => true

/-! ## Interception -/

theorem Metadata.set_self (metadata : Metadata) (key : String) (value : Value) :
    metadata.set key value key = some value := by
  simp [Metadata.set]

theorem Metadata.set_of_ne (metadata : Metadata) {key k : String} (value : Value) (h : k ≠ key) :
    metadata.set key value k = metadata k := by
  simp [Metadata.set, h]

theorem Metadata.set_eq_self {metadata : Metadata} {key : String} {value : Value}
    (h : metadata key = some value) : metadata.set key value = metadata := by
  funext k
  unfold Metadata.set
  split
  case isTrue hk => rw [hk, h]
  case isFalse hk => rfl

theorem Metadata.textOr_of_string {metadata : Metadata} {key text : String} (fallback : String)
    (h : metadata key = some (.string text)) : metadata.textOr key fallback = text := by
  unfold Metadata.textOr
  rw [h]
  rfl

theorem correlation_correlationId (message : Message P) :
    (correlation message).metadata "correlationId" = some (.string (chainId message)) := by
  simp only [correlation, chainId]
  rw [Metadata.set_of_ne _ _ (by decide), Metadata.set_self]

theorem correlation_causationId (message : Message P) :
    (correlation message).metadata "causationId" =
      some (.string (message.metadata.textOr "causationId" message.identifier)) := by
  simp only [correlation]
  rw [Metadata.set_self]

theorem correlation_eq_self {message : Message P} {chain cause : String}
    (hchain : message.metadata "correlationId" = some (.string chain))
    (hcause : message.metadata "causationId" = some (.string cause)) :
    correlation message = message := by
  unfold correlation
  rw [Metadata.textOr_of_string _ hchain, Metadata.textOr_of_string _ hcause,
    Metadata.set_eq_self hchain, Metadata.set_eq_self hcause]

theorem correlation_idempotent (message : Message P) :
    correlation (correlation message) = correlation message :=
  correlation_eq_self (correlation_correlationId message) (correlation_causationId message)

theorem correlatedBus_of_fixed {message : Message P} (h : correlation message = message)
    (bus : Bus P) (n : ℕ) : correlatedBus bus n message = bus message := by
  induction n with
  | zero => rfl
  | succ n ih =>
      change correlatedBus bus n (correlation message) = bus message
      rw [h, ih]

theorem correlatedBus_succ (bus : Bus P) (n : ℕ) (message : Message P) :
    correlatedBus bus (n+1) message = bus (correlation message) :=
  correlatedBus_of_fixed (correlation_idempotent message) bus n

/-- Interception neither changes the chain a message belongs to nor the message it is. -/
structure SameOrigin (received message : Message P) : Prop where
  chain : chainId received = chainId message
  identifier : received.identifier = message.identifier

theorem sameOrigin_withInstant (message : Message P) (now : ℤ) :
    SameOrigin (withInstant message now) message := by
  unfold withInstant
  split
  · exact ⟨rfl, rfl⟩
  · exact ⟨rfl, rfl⟩

theorem chainId_correlation (message : Message P) :
    chainId (correlation message) = chainId message :=
  Metadata.textOr_of_string _ (correlation_correlationId message)

theorem sameOrigin_correlatedBus (now : ℤ) (n : ℕ) (message : Message P) :
    SameOrigin (correlatedBus (localBus now) n message) message := by
  cases n with
  | zero => exact sameOrigin_withInstant message now
  | succ n =>
      rw [correlatedBus_succ]
      have h := sameOrigin_withInstant (correlation message) now
      exact ⟨h.chain.trans (chainId_correlation message), h.identifier⟩

theorem sameOrigin_delivered (now : ℤ) (n : ℕ) (message : Message P) :
    SameOrigin (delivered now n message) message := by
  unfold delivered
  split
  · exact ⟨rfl, rfl⟩
  · exact sameOrigin_correlatedBus now n message
  · exact sameOrigin_correlatedBus now n message

/-! ## The cargo -/

theorem messageOrigin_of_ne (parent : Message P) {key : String} (h : key ≠ "traceparent") :
    messageOrigin parent key = ((emptyMetadata.set "correlationId" (.string (chainId parent))).set
      "causationId" (.string parent.identifier)) key := by
  unfold messageOrigin
  rcases parent.metadata "traceparent" with _ | _ | _ | text | _
  case some.string => exact Metadata.set_of_ne _ _ h
  all_goals rfl

theorem messageOrigin_correlationId (parent : Message P) :
    messageOrigin parent "correlationId" = some (.string (chainId parent)) := by
  rw [messageOrigin_of_ne parent (by decide), Metadata.set_of_ne _ _ (by decide), Metadata.set_self]

theorem messageOrigin_causationId (parent : Message P) :
    messageOrigin parent "causationId" = some (.string parent.identifier) := by
  rw [messageOrigin_of_ne parent (by decide), Metadata.set_self]

theorem stringly_of_string {metadata : Metadata} {key text : String}
    (h : metadata key = some (.string text)) : stringly metadata key = some (.string text) := by
  unfold stringly
  rw [h]
  rfl

/-- The pair a handling of `message` hands down. -/
structure HandsDown (cargo : Metadata) (message : Message P) : Prop where
  chain : cargo "correlationId" = some (.string (chainId message))
  cause : cargo "causationId" = some (.string message.identifier)

theorem SameOrigin.handsDown {received message : Message P} (h : SameOrigin received message) :
    HandsDown (stringly (messageOrigin received)) message where
  chain := by
    rw [← h.chain]
    exact stringly_of_string (messageOrigin_correlationId received)
  cause := by
    rw [← h.identifier]
    exact stringly_of_string (messageOrigin_causationId received)

/-- What the caller left unnamed comes from the cargo. -/
theorem HandsDown.merge {cargo : Metadata} {message : Message P} (h : HandsDown cargo message)
    {provided : Option Metadata} (hp : namesNeither provided = true) :
    HandsDown (mergeMetadata cargo (provided.getD emptyMetadata)) message := by
  cases provided with
  | none => exact ⟨h.chain, h.cause⟩
  | some metadata =>
      obtain ⟨hchain, hcause⟩ := (Bool.and_eq_true _ _).mp hp
      constructor
      · change (metadata "correlationId").or (cargo "correlationId") = _
        rw [Option.isNone_iff_eq_none.mp hchain]
        exact h.chain
      · change (metadata "causationId").or (cargo "causationId") = _
        rw [Option.isNone_iff_eq_none.mp hcause]
        exact h.cause

/-! ## The verbs -/

theorem bind_eq_ok {α β ε : Type} {x : Except ε α} {f : α → Except ε β} {b : β}
    (h : (x >>= f) = .ok b) : ∃ a, x = .ok a ∧ f a = .ok b := by
  cases x with
  | error e => cases h
  | ok a => exact ⟨a, rfl, h⟩

theorem forall₂_mem_right {α β : Type} {R : α → β → Prop} {xs : List α} {ys : List β}
    (h : List.Forall₂ R xs ys) {y : β} (hy : y ∈ ys) : ∃ x ∈ xs, R x y := by
  induction h with
  | nil => cases hy
  | cons hxy _ ih =>
      rcases List.mem_cons.mp hy with rfl | hy
      · exact ⟨_, List.mem_cons_self, hxy⟩
      · obtain ⟨x, hx, hr⟩ := ih hy
        exact ⟨x, List.mem_cons_of_mem _ hx, hr⟩

/-- A verb's births carry exactly what it was passed. -/
def Bears (births : Births P) (metadata : Option Metadata) : Prop :=
  ∀ identifiers messages, births identifiers = .ok messages →
    ∀ message ∈ messages, message.metadata = metadata.getD emptyMetadata

theorem missing_bears (metadata : Option Metadata) : Bears (missing : Births P) metadata := by
  intro identifiers messages h
  cases h

theorem sendFunction_bears (deps : Deps) (descriptor : Descriptor P) (payload : P)
    (metadata : Option Metadata) :
    Bears (sendFunction deps descriptor payload metadata) metadata := by
  intro identifiers messages h message hmessage
  obtain ⟨_, -, h⟩ := bind_eq_ok h
  split at h
  · cases h
    rw [List.mem_singleton.mp hmessage]
  · cases h

theorem queryFunction_bears (deps : Deps) (descriptor : Descriptor P) (payload : P)
    (metadata : Option Metadata) :
    Bears (queryFunction deps descriptor payload metadata) metadata := by
  intro identifiers messages h message hmessage
  obtain ⟨_, -, h⟩ := bind_eq_ok h
  split at h
  · cases h
    rw [List.mem_singleton.mp hmessage]
  · cases h

theorem appendOne_metadata {deps : Deps} {identifier : String} {event : Descriptor P} {payload : P}
    {metadata : Option Metadata} {message : Message P}
    (h : appendOne deps identifier event payload metadata = .ok message) :
    message.metadata = metadata.getD emptyMetadata := by
  obtain ⟨_, -, h⟩ := bind_eq_ok h
  cases h
  rfl

theorem appendFunction_single_bears (deps : Deps) (event : Descriptor P) (payload : P)
    (metadata : Option Metadata) :
    Bears (appendFunction deps (.single event payload metadata)) metadata := by
  intro identifiers messages h message hmessage
  obtain ⟨one, hone, h⟩ := bind_eq_ok h
  cases h
  rw [List.mem_singleton.mp hmessage]
  exact appendOne_metadata hone

/-- Each message of a batch carries the metadata of one entry. -/
theorem appendFunction_batch_metadata {deps : Deps}
    {entries : List (Descriptor P × P × Option Metadata)} {identifiers : ℕ → String}
    {messages : List (Message P)}
    (h : appendFunction deps (.batch entries) identifiers = .ok messages) {message : Message P}
    (hmessage : message ∈ messages) :
    ∃ entry ∈ entries, message.metadata = entry.2.2.getD emptyMetadata := by
  obtain ⟨entry, hentry, hone⟩ := forall₂_mem_right (mapM_eq_ok.mp h) hmessage
  exact ⟨entry.1, List.fst_mem_of_mem_zipIdx hentry, appendOne_metadata hone⟩

theorem schedule_bears (deps : Deps) (event : Descriptor P) (payload : P) (date : Option ℤ)
    (metadata : Option Metadata) : Bears (schedule deps event payload date metadata) metadata := by
  intro identifiers messages h message hmessage
  obtain ⟨_, -, h⟩ := bind_eq_ok h
  split at h
  · cases date with
    | none => cases h
    | some date =>
        cases h
        rw [List.mem_singleton.mp hmessage]
        rfl
  · cases h

theorem scheduleAfter_bears (deps : Deps) (event : Descriptor P) (payload : P) (delayMs : Option ℤ)
    (metadata : Option Metadata) :
    Bears (scheduleAfter deps event payload delayMs metadata) metadata := by
  cases delayMs with
  | none =>
      intro identifiers messages h
      cases h
  | some delayMs => exact schedule_bears deps event payload _ metadata

/-- A wrapped verb lays what it was passed over the cargo. -/
theorem call_overlaid {kind : MessageKind} {deps : Deps} {cargo : Metadata} {verb : Verb P}
    {identifiers : ℕ → String} {messages : List (Message P)}
    (h : verb.call (overlaid (contextOf kind deps) cargo) identifiers = .ok messages)
    {message : Message P} (hmessage : message ∈ messages) :
    ∃ provided ∈ verb.provided,
      message.metadata = mergeMetadata cargo (provided.getD emptyMetadata) := by
  cases verb with
  | send descriptor payload metadata =>
      have hbears : Bears ((Verb.send descriptor payload metadata).call
          (overlaid (contextOf kind deps) cargo)) (overlay cargo metadata) := by
        cases kind with
        | command => exact sendFunction_bears deps descriptor payload _
        | event => exact sendFunction_bears deps descriptor payload _
        | query => exact missing_bears _
      exact ⟨metadata, List.mem_singleton_self _, hbears _ _ h _ hmessage⟩
  | query descriptor payload metadata =>
      have hbears : Bears ((Verb.query descriptor payload metadata).call
          (overlaid (contextOf kind deps) cargo)) (overlay cargo metadata) := by
        cases kind with
        | command => exact queryFunction_bears deps descriptor payload _
        | event => exact queryFunction_bears deps descriptor payload _
        | query => exact queryFunction_bears deps descriptor payload _
      exact ⟨metadata, List.mem_singleton_self _, hbears _ _ h _ hmessage⟩
  | append args =>
      cases args with
      | single event payload metadata =>
          have hbears : Bears ((Verb.append (.single event payload metadata)).call
              (overlaid (contextOf kind deps) cargo)) (overlay cargo metadata) := by
            cases kind with
            | command => exact appendFunction_single_bears deps event payload _
            | event => exact missing_bears _
            | query => exact missing_bears _
          exact ⟨metadata, List.mem_singleton_self _, hbears _ _ h _ hmessage⟩
      | batch entries =>
          cases kind with
          | event => cases h
          | query => cases h
          | command =>
              obtain ⟨wrapped, hwrapped, hmetadata⟩ := appendFunction_batch_metadata h hmessage
              obtain ⟨entry, hentry, rfl⟩ := List.mem_map.mp hwrapped
              exact ⟨entry.2.2, List.mem_map_of_mem hentry, hmetadata⟩
  | schedule event payload date metadata =>
      have hbears : Bears ((Verb.schedule event payload date metadata).call
          (overlaid (contextOf kind deps) cargo)) (overlay cargo metadata) := by
        cases kind with
        | command => exact schedule_bears deps event payload date _
        | event => exact schedule_bears deps event payload date _
        | query => exact missing_bears _
      exact ⟨metadata, List.mem_singleton_self _, hbears _ _ h _ hmessage⟩
  | scheduleAfter event payload delayMs metadata =>
      have hbears : Bears ((Verb.scheduleAfter event payload delayMs metadata).call
          (overlaid (contextOf kind deps) cargo)) (overlay cargo metadata) := by
        cases kind with
        | command => exact scheduleAfter_bears deps event payload delayMs _
        | event => exact scheduleAfter_bears deps event payload delayMs _
        | query => exact missing_bears _
      exact ⟨metadata, List.mem_singleton_self _, hbears _ _ h _ hmessage⟩

/-! ## The invariant -/

structure Inv (world : World P) : Prop where
  born : ∀ (i : ℕ) (node : Node P) (p : ℕ), world.nodes[i]? = some node → node.parent = some p →
    p < i ∧ ∃ parent, world.nodes[p]? = some parent ∧
      HandsDown node.message.metadata parent.message
  carried : ∀ handling ∈ world.handlings, ∃ node, world.nodes[handling.node]? = some node ∧
    HandsDown handling.cargo node.message

theorem Inv.initial : Inv (World.initial : World P) where
  born := by
    intro i node p hnode
    cases hnode
  carried := by
    intro handling hhandling
    cases hhandling

/-- Nodes join at the end; the rule is asked of the new ones. -/
theorem Inv.join {world : World P} (hI : Inv world) {joined : List (Node P)}
    (hjoined : ∀ node ∈ joined, ∀ p, node.parent = some p →
      ∃ parent, world.nodes[p]? = some parent ∧ HandsDown node.message.metadata parent.message) :
    Inv { world with nodes := world.nodes ++ joined } where
  born := by
    intro i node p hnode hp
    rcases Nat.lt_or_ge i world.nodes.length with hlt | hge
    · rw [List.getElem?_append_left hlt] at hnode
      obtain ⟨hpi, parent, hparent, hdown⟩ := hI.born i node p hnode hp
      exact ⟨hpi, parent, getElem?_append_of_some hparent, hdown⟩
    · rw [List.getElem?_append_right hge] at hnode
      obtain ⟨parent, hparent, hdown⟩ := hjoined node (List.mem_of_getElem? hnode) p hp
      have hplt : p < world.nodes.length := (List.getElem?_eq_some_iff.mp hparent).1
      exact ⟨by omega, parent, getElem?_append_of_some hparent, hdown⟩
  carried := by
    intro handling hhandling
    obtain ⟨node, hnode, hdown⟩ := hI.carried handling hhandling
    exact ⟨node, getElem?_append_of_some hnode, hdown⟩

theorem Inv.tasks {world : World P} (hI : Inv world) (tasks : List Task) :
    Inv { world with tasks := tasks } :=
  ⟨hI.born, hI.carried⟩

/-- Whatever else runs on the unit of work, a verb reads the cargo of its own handling. -/
theorem Inv.call {world : World P} (hI : Inv world) {handling : Handling P}
    (hhandling : handling ∈ world.handlings) {task : Task} {verb : Verb P}
    {identifiers : ℕ → String} {births : List (Message P)}
    (hfree : verb.provided.all namesNeither = true)
    (h : verb.call (handling.context task) identifiers = .ok births) :
    Inv { world with
      nodes := world.nodes ++ births.map fun message => ⟨message, some handling.node⟩ } := by
  apply hI.join
  intro node hnode p hp
  obtain ⟨message, hmessage, rfl⟩ := List.mem_map.mp hnode
  cases hp
  obtain ⟨parent, hparent, hdown⟩ := hI.carried handling hhandling
  obtain ⟨provided, hprovided, hmetadata⟩ := call_overlaid h hmessage
  have hunnamed := List.all_eq_true.mp hfree provided hprovided
  refine ⟨parent, hparent, ?_⟩
  rw [hmetadata]
  exact hdown.merge hunnamed

theorem Inv.step {world after : World P} {action : Action P} (hI : Inv world)
    (hfree : action.namesNeither = true) (hstep : step world action = some after) : Inv after := by
  cases action with
  | task task =>
      cases hstep
      exact hI.tasks _
  | advance i phase closed =>
      obtain ⟨task, -, hstep⟩ := Option.bind_eq_some_iff.mp hstep
      cases hstep
      exact hI.tasks _
  | root message =>
      cases hstep
      apply hI.join
      intro node hnode p hp
      rw [List.mem_singleton.mp hnode] at hp
      cases hp
  | handle i t interceptions commandBus queryBus scheduling =>
      obtain ⟨node, hnode, hstep⟩ := Option.bind_eq_some_iff.mp hstep
      obtain ⟨task, -, hstep⟩ := Option.bind_eq_some_iff.mp hstep
      cases hstep
      refine ⟨hI.born, ?_⟩
      intro handling hhandling
      rcases List.mem_append.mp hhandling with hold | hnew
      · exact hI.carried handling hold
      · rw [List.mem_singleton.mp hnew]
        exact ⟨node, hnode, (sameOrigin_delivered task.now interceptions node.message).handsDown⟩
  | call h verb identifiers =>
      obtain ⟨handling, hhandling, hstep⟩ := Option.bind_eq_some_iff.mp hstep
      obtain ⟨task, -, hstep⟩ := Option.bind_eq_some_iff.mp hstep
      cases hcall : verb.call (handling.context task) identifiers with
      | error e =>
          rw [hcall] at hstep
          cases hstep
          exact hI
      | ok births =>
          rw [hcall] at hstep
          cases hstep
          exact hI.call (List.mem_of_getElem? hhandling) hfree hcall

/-! ## Down the tree -/

theorem HandsDown.chainId_eq {child parent : Message P} (h : HandsDown child.metadata parent) :
    chainId child = chainId parent :=
  Metadata.textOr_of_string _ h.chain

/-- Every node descends from a root, whose chain it belongs to. -/
theorem Inv.exists_root {world : World P} (hI : Inv world) (i : ℕ) :
    ∀ node, world.nodes[i]? = some node →
      ∃ r root, world.nodes[r]? = some root ∧ root.parent = none ∧
        Relation.ReflTransGen (Bore world) r i ∧ chainId node.message = chainId root.message := by
  induction i using Nat.strongRecOn with
  | ind i ih =>
      intro node hnode
      cases hp : node.parent with
      | none => exact ⟨i, node, hnode, hp, .refl, rfl⟩
      | some p =>
          obtain ⟨hlt, parent, hparent, hdown⟩ := hI.born i node p hnode hp
          obtain ⟨r, root, hroot, hnone, hpath, hchain⟩ := ih p hlt parent hparent
          exact ⟨r, root, hroot, hnone, hpath.tail ⟨node, hnode, hp⟩, hdown.chainId_eq.trans hchain⟩

/-- Every message of a run belongs to a root. One that a handling bore carries
the root's correlation id and names the message that was handled as its cause,
and no number of interceptions changes it; a root is settled by the first. -/
theorem chain_holds_down_tree {world : World P}
    (h : Reach step (fun _ action => action.namesNeither = true) World.initial world) {i : ℕ}
    {node : Node P} (hnode : world.nodes[i]? = some node) :
    ∃ r root, world.nodes[r]? = some root ∧ root.parent = none ∧
      Relation.ReflTransGen (Bore world) r i ∧
      (∀ p, node.parent = some p →
        node.message.metadata "correlationId" = some (.string (chainId root.message)) ∧
        (∃ parent, world.nodes[p]? = some parent ∧
          node.message.metadata "causationId" = some (.string parent.message.identifier)) ∧
        ∀ bus n, correlatedBus bus n node.message = bus node.message) ∧
      (correlation node.message).metadata "correlationId" =
        some (.string (chainId root.message)) ∧
      ∀ bus n, correlatedBus bus (n+1) node.message = bus (correlation node.message) := by
  have hI : Inv world := h.invariant (I := Inv) Inv.initial
    fun _ _ _ _ hI hfree hstep => hI.step hfree hstep
  obtain ⟨r, root, hroot, hnone, hpath, hchain⟩ := hI.exists_root i node hnode
  refine ⟨r, root, hroot, hnone, hpath, ?_, ?_, ?_⟩
  · intro p hp
    obtain ⟨-, parent, hparent, hdown⟩ := hI.born i node p hnode hp
    refine ⟨?_, ⟨parent, hparent, hdown.cause⟩, ?_⟩
    · rw [← hchain, hdown.chainId_eq]
      exact hdown.chain
    · exact correlatedBus_of_fixed (correlation_eq_self hdown.chain hdown.cause)
  · rw [← hchain]
    exact correlation_correlationId node.message
  · exact fun bus n => correlatedBus_succ bus n node.message

/-- A command bears another and two events; its child is handled on the same
unit of work before it bears one more command. -/
def interleaved : List (Action ℕ) :=
  let descriptor : Descriptor ℕ := ⟨⟨"university", "Enrol"⟩, "1.0", fun _ _ => []⟩
  [.task ⟨false, some .invocation, 0⟩,
    .root ⟨.command, "m0", ⟨"university", "Open"⟩, none, 0, emptyMetadata, none, []⟩,
    .handle 0 0 2 true true true,
    .call 0 (.send descriptor 1 none) (fun _ => "m1"),
    .call 0 (.append (.batch [(descriptor, 2, none), (descriptor, 3, some emptyMetadata)]))
      (fun i => if i = 0 then "m2" else "m3"),
    .handle 1 0 0 true true true,
    .call 1 (.schedule descriptor 4 (some 9) none) (fun _ => "m4"),
    .call 0 (.send descriptor 5 none) (fun _ => "m5")]

theorem chain_holds_interleaved :
    ∃ (world : World ℕ) (node : Node ℕ),
      Reach step (fun _ action => action.namesNeither = true) World.initial world ∧
      world.nodes[4]? = some node ∧ node.parent = some 1 ∧ ∃ root : Node ℕ, root.parent = none ∧
      node.message.metadata "correlationId" = some (.string (chainId root.message)) := by
  obtain ⟨world, hreach, hparent⟩ := reach_guarded_any
    (show ((exec (guarded step fun _ action => action.namesNeither = true) World.initial
      interleaved).any fun world => decide
        ((world.nodes[4]?.bind fun node => node.parent) = some 1)) = true by decide +kernel)
  obtain ⟨node, hnode, hp⟩ := Option.bind_eq_some_iff.mp hparent
  obtain ⟨r, root, -, hnone, -, hborn, -⟩ := chain_holds_down_tree hreach hnode
  exact ⟨world, node, hreach, hnode, hp, root, hnone, (hborn 1 hp).1⟩

end Kronos.Correlation
