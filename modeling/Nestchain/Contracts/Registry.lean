import Nestchain.Lib.Table
import Nestchain.Lib.Attempt

/-! The registry of smart contracts.  A contract is addressed by the hash of its texts, written one
after the other; its owner switches it on and off and kills it, and anyone calls it.  The virtual
machine and the hash are parameters, and the fees are left out. -/

namespace Nestchain.Contracts

open Nestchain.Lib

abbrev AccountId := Nat

/-- `std::string` -/
abbrev Text := List UInt8

/-- `contract_addr_type`: a digest as text. -/
abbrev ContractAddr := Text

/-- `contract_object` -/
structure Contract where
  owner : AccountId
  contractAddr : ContractAddr
  bytecode : Text
  abiJson : Text
  constructData : Text
  contractName : Text
  activated : Bool
  contractState : Text
deriving DecidableEq

/-- `fc::sha256::hash` and the virtual machine, which may throw. -/
structure Machine where
  sha256 : Text → ContractAddr
  constructSmartContract : Text → ContractAddr → Text → Text → Option Text
  callSmartContract : Text → ContractAddr → Text → Text → Text → Option Text

/-- `smart_contract_deploy_operation` -/
structure Deployment where
  owner : AccountId
  contractAddr : ContractAddr
  bytecode : Text
  abiJson : Text
  constructData : Text
  contractName : Text
deriving DecidableEq

inductive ContractOperation where
  | deploy (o : Deployment)
  | activate (activator : AccountId) (contractAddr : ContractAddr)
  | deactivate (deactivator : AccountId) (contractAddr : ContractAddr)
  | kill (killer : AccountId) (contractAddr : ContractAddr)
  | call (caller : AccountId) (contractAddr : ContractAddr) (callData : Text)
deriving DecidableEq

/-- `contract_index` -/
abbrev Registry := Table Contract

/-- `by_contract_addr` -/
def Registry.at (t : Registry) (addr : ContractAddr) : Option (Nat × Contract) :=
  t.findBy fun c => c.contractAddr = addr

def Deployment.text (o : Deployment) : Text := o.bytecode ++ o.abiJson ++ o.constructData

/-- `smart_contract_deploy_evaluator::do_apply`.  The index refuses an address that is taken. -/
def deploy (vm : Machine) (o : Deployment) (t : Registry) : Attempt Registry := do
  require (o.abiJson ≠ [])
  require (o.contractAddr = vm.sha256 o.text)
  let contractState ← demand
    (vm.constructSmartContract o.bytecode o.contractAddr o.constructData o.abiJson)
  require (t.at o.contractAddr = none)
  pure (t.create
    { owner := o.owner
      contractAddr := o.contractAddr
      bytecode := o.bytecode
      abiJson := o.abiJson
      constructData := o.constructData
      contractName := o.contractName
      activated := true
      contractState := contractState })

/-- `update_contract_activate_status`, which does nothing at an address without a contract. -/
def updateContractActivateStatus (addr : ContractAddr) (activated : Bool) (t : Registry) :
    Attempt Registry :=
  match t.at addr with
  | none => pure t
  | some (id, c) => do
    require (c.activated ≠ activated)
    pure (t.set id { c with activated := activated })

/-- `smart_contract_activate_evaluator::do_apply`, and that of
`smart_contract_deactivate_evaluator`. -/
def switch (account : AccountId) (addr : ContractAddr) (activated : Bool) (t : Registry) :
    Attempt Registry := do
  let (_, c) ← demand (t.at addr)
  require (c.owner = account)
  updateContractActivateStatus addr activated t

/-- `smart_contract_kill_evaluator::do_apply` -/
def kill (killer : AccountId) (addr : ContractAddr) (t : Registry) : Attempt Registry := do
  let (id, c) ← demand (t.at addr)
  require (c.owner = killer)
  pure (t.remove id)

/-- `smart_contract_call_evaluator::do_apply` -/
def call (vm : Machine) (addr : ContractAddr) (callData : Text) (t : Registry) :
    Attempt Registry := do
  let (id, c) ← demand (t.at addr)
  require (c.activated = true)
  let contractState ← demand
    (vm.callSmartContract c.bytecode c.contractAddr callData c.abiJson c.contractState)
  pure (t.set id { c with contractState := contractState })

/-- `do_apply` of the operations. -/
def applyOperation (vm : Machine) (t : Registry) : ContractOperation → Attempt Registry
  | .deploy o => deploy vm o t
  | .activate account addr => switch account addr true t
  | .deactivate account addr => switch account addr false t
  | .kill account addr => kill account addr t
  | .call _ addr callData => call vm addr callData t

/-- An operation that throws leaves the registry as it is. -/
def step (vm : Machine) (t : Registry) (op : ContractOperation) : Registry :=
  (applyOperation vm t op).toOption.getD t

def runOperations (vm : Machine) (ops : List ContractOperation) : Registry :=
  ops.foldl (step vm) Table.empty

/-- The deployments among the operations that are accepted. -/
def acceptedDeployments (vm : Machine) : Registry → List ContractOperation → List Deployment
  | _, [] => []
  | t, op :: ops =>
    let rest := acceptedDeployments vm (step vm t op) ops
    match op, applyOperation vm t op with
    | .deploy o, .ok _ => o :: rest
    | _, _ => rest

/-- There is at most one contract for an address. -/
def OnePerAddress (t : Registry) : Prop :=
  ∀ id id' c c', t.find id = some c → t.find id' = some c' → c.contractAddr = c'.contractAddr →
    id = id'

/-- What an operation may make of a contract that lives on. -/
structure Respects (op : ContractOperation) (c c' : Contract) : Prop where
  owner : c'.owner = c.owner
  contractAddr : c'.contractAddr = c.contractAddr
  bytecode : c'.bytecode = c.bytecode
  abiJson : c'.abiJson = c.abiJson
  constructData : c'.constructData = c.constructData
  activated : c'.activated ≠ c.activated →
    op = .activate c.owner c.contractAddr ∨ op = .deactivate c.owner c.contractAddr
  contractState : c'.contractState ≠ c.contractState →
    c.activated = true ∧ ∃ caller callData, op = .call caller c.contractAddr callData

/-- What an operation may make of a contract: it respects it, or removes it for its owner. -/
def MayBecome (op : ContractOperation) (c : Contract) : Option Contract → Prop
  | some c' => Respects op c c'
  | none => op = .kill c.owner c.contractAddr

/-- An address identifies the content of the contracts that were deployed at it. -/
def AddressesIdentify (os : List Deployment) : Prop :=
  ∀ o ∈ os, ∀ o' ∈ os, o.contractAddr = o'.contractAddr →
    o.bytecode = o'.bytecode ∧ o.abiJson = o'.abiJson ∧ o.constructData = o'.constructData

/-- No two deployments divide the same text in different places. -/
def DividedAlike (os : List Deployment) : Prop :=
  ∀ o ∈ os, ∀ o' ∈ os, o.text = o'.text →
    o.bytecode.length = o'.bytecode.length ∧ o.abiJson.length = o'.abiJson.length

/-! ### One operation -/

section

variable {vm : Machine} {t t' : Registry} {op : ContractOperation} {o : Deployment}

theorem Registry.at_some {addr : ContractAddr} {id : Nat} {c : Contract}
    (h : t.at addr = some (id, c)) : t.find id = some c ∧ c.contractAddr = addr := by
  obtain ⟨hfind, haddr⟩ := Table.findBy_some h
  exact ⟨hfind, of_decide_eq_true haddr⟩

theorem Registry.at_none {addr : ContractAddr} (h : t.at addr = none) {id : Nat} {c : Contract}
    (hc : t.find id = some c) : c.contractAddr ≠ addr :=
  fun heq => Table.findBy_none h hc (decide_eq_true heq)

theorem Respects.refl (op : ContractOperation) (c : Contract) : Respects op c c :=
  ⟨rfl, rfl, rfl, rfl, rfl, fun h => absurd rfl h, fun h => absurd rfl h⟩

theorem switch_cases {account : AccountId} {addr : ContractAddr} {activated : Bool}
    (h : switch account addr activated t = .ok t') :
    ∃ id c, t.find id = some c ∧ t' = t.set id { c with activated := activated } ∧
      c.owner = account ∧ c.contractAddr = addr := by
  simp only [switch, bind_eq_ok, require_eq_ok, demand_eq_ok] at h
  obtain ⟨⟨id, c⟩, hat, -, howner, hstatus⟩ := h
  obtain ⟨hfind, haddr⟩ := Registry.at_some hat
  rw [updateContractActivateStatus, hat] at hstatus
  simp only [bind_eq_ok, require_eq_ok, pure_eq_ok] at hstatus
  obtain ⟨-, -, rfl⟩ := hstatus
  exact ⟨id, c, hfind, rfl, howner, haddr⟩

theorem deploy_cases (h : deploy vm o t = .ok t') :
    o.contractAddr = vm.sha256 o.text ∧ t.at o.contractAddr = none ∧
      ∃ c, c.contractAddr = o.contractAddr ∧ t' = t.create c := by
  simp only [deploy, bind_eq_ok, require_eq_ok, demand_eq_ok, pure_eq_ok] at h
  obtain ⟨-, -, -, haddr, contractState, -, -, hnone, rfl⟩ := h
  exact ⟨haddr, hnone, _, rfl, rfl⟩

theorem applyOperation_cases (h : applyOperation vm t op = .ok t') :
    (∃ o c, op = .deploy o ∧ t.at o.contractAddr = none ∧ c.contractAddr = o.contractAddr ∧
      t' = t.create c) ∨
    (∃ id c c', t.find id = some c ∧ t' = t.set id c' ∧ Respects op c c') ∨
    (∃ id c, t.find id = some c ∧ t' = t.remove id ∧ op = .kill c.owner c.contractAddr) := by
  cases op with
  | deploy o =>
    obtain ⟨-, hnone, c, haddr, rfl⟩ := deploy_cases h
    exact Or.inl ⟨o, c, rfl, hnone, haddr, rfl⟩
  | activate account addr =>
    obtain ⟨id, c, hfind, rfl, rfl, rfl⟩ := switch_cases h
    exact Or.inr (Or.inl ⟨id, c, _, hfind, rfl,
      ⟨rfl, rfl, rfl, rfl, rfl, fun _ => Or.inl rfl, fun hne => absurd rfl hne⟩⟩)
  | deactivate account addr =>
    obtain ⟨id, c, hfind, rfl, rfl, rfl⟩ := switch_cases h
    exact Or.inr (Or.inl ⟨id, c, _, hfind, rfl,
      ⟨rfl, rfl, rfl, rfl, rfl, fun _ => Or.inr rfl, fun hne => absurd rfl hne⟩⟩)
  | kill account addr =>
    simp only [applyOperation, kill, bind_eq_ok, require_eq_ok, demand_eq_ok, pure_eq_ok] at h
    obtain ⟨⟨id, c⟩, hat, -, howner, rfl⟩ := h
    obtain ⟨hfind, haddr⟩ := Registry.at_some hat
    refine Or.inr (Or.inr ⟨id, c, hfind, rfl, ?_⟩)
    rw [howner, haddr]
  | call account addr callData =>
    simp only [applyOperation, call, bind_eq_ok, require_eq_ok, demand_eq_ok, pure_eq_ok] at h
    obtain ⟨⟨id, c⟩, hat, -, hactive, contractState, -, rfl⟩ := h
    obtain ⟨hfind, haddr⟩ := Registry.at_some hat
    refine Or.inr (Or.inl ⟨id, c, _, hfind, rfl, ?_⟩)
    refine ⟨rfl, rfl, rfl, rfl, rfl, fun hne => absurd rfl hne, fun _ =>
      ⟨hactive, account, callData, ?_⟩⟩
    rw [haddr]

theorem step_cases (vm : Machine) (t : Registry) (op : ContractOperation) :
    applyOperation vm t op = .ok (step vm t op) ∨ step vm t op = t := by
  unfold step
  cases applyOperation vm t op with
  | ok t' => exact Or.inl rfl
  | error e => exact Or.inr rfl

theorem OnePerAddress.apply (h : OnePerAddress t) (hop : applyOperation vm t op = .ok t') :
    OnePerAddress t' := by
  rcases applyOperation_cases hop with ⟨o, c, -, hnone, haddr, rfl⟩ | ⟨id, c, c', hc, rfl, hkeep⟩ |
    ⟨id, c, -, rfl, -⟩
  · intro i j x y hx hy heq
    rcases Table.find_create_iff.mp hx with hx' | ⟨rfl, rfl⟩
    · rcases Table.find_create_iff.mp hy with hy' | ⟨rfl, rfl⟩
      · exact h i j x y hx' hy' heq
      · exact absurd (heq.trans haddr) (Registry.at_none hnone hx')
    · rcases Table.find_create_iff.mp hy with hy' | ⟨rfl, rfl⟩
      · exact absurd (heq.symm.trans haddr) (Registry.at_none hnone hy')
      · rfl
  · -- the contract that is replaced keeps its address
    have hold : ∀ i x, (t.set id c').find i = some x →
        ∃ x', t.find i = some x' ∧ x'.contractAddr = x.contractAddr := by
      intro i x hx
      rcases (Table.find_set_iff hc).mp hx with ⟨rfl, rfl⟩ | ⟨-, hx⟩
      · exact ⟨c, hc, hkeep.contractAddr.symm⟩
      · exact ⟨x, hx, rfl⟩
    intro i j x y hx hy heq
    obtain ⟨x', hx', haddr⟩ := hold i x hx
    obtain ⟨y', hy', haddr'⟩ := hold j y hy
    exact h i j x' y' hx' hy' (haddr.trans (heq.trans haddr'.symm))
  · intro i j x y hx hy heq
    exact h i j x y (Table.find_remove_iff.mp hx).2 (Table.find_remove_iff.mp hy).2 heq

theorem mayBecome_apply (hop : applyOperation vm t op = .ok t') {id : Nat} {c : Contract}
    (hc : t.find id = some c) : MayBecome op c (t'.find id) := by
  rcases applyOperation_cases hop with ⟨o, x, -, -, -, rfl⟩ | ⟨i, x, x', hx, rfl, hkeep⟩ |
    ⟨i, x, hx, rfl, hkill⟩
  · rw [Table.find_create_ne (Nat.ne_of_lt (Table.find_lt hc)), hc]
    exact Respects.refl op c
  · by_cases hi : id = i
    · subst hi
      obtain rfl := Option.some.inj (hc.symm.trans hx)
      rw [Table.find_set_self hc]
      exact hkeep
    · rw [Table.find_set_ne hi, hc]
      exact Respects.refl op c
  · by_cases hi : id = i
    · subst hi
      obtain rfl := Option.some.inj (hc.symm.trans hx)
      rw [Table.find_remove_self]
      exact hkill
    · rw [Table.find_remove_ne hi, hc]
      exact Respects.refl op c

/-! ### A run -/

theorem onePerAddress_foldl (h : OnePerAddress t) (ops : List ContractOperation) :
    OnePerAddress (ops.foldl (step vm) t) := by
  induction ops generalizing t with
  | nil => exact h
  | cons op ops ih =>
    refine ih ?_
    rcases step_cases vm t op with hok | heq
    · exact h.apply hok
    · rw [heq]
      exact h

theorem acceptedDeployments_addr {ops : List ContractOperation}
    (h : o ∈ acceptedDeployments vm t ops) : o.contractAddr = vm.sha256 o.text := by
  induction ops generalizing t with
  | nil => exact absurd h List.not_mem_nil
  | cons op ops ih =>
    unfold acceptedDeployments at h
    simp only at h
    split at h
    · rename_i o' t' hok
      rcases List.mem_cons.mp h with rfl | h
      · exact (deploy_cases hok).1
      · exact ih h
    · exact ih h

theorem Deployment.text_eq_iff {o o' : Deployment} (htext : o.text = o'.text) :
    (o.bytecode = o'.bytecode ∧ o.abiJson = o'.abiJson ∧ o.constructData = o'.constructData) ↔
      o.bytecode.length = o'.bytecode.length ∧ o.abiJson.length = o'.abiJson.length := by
  constructor
  · rintro ⟨hcode, habi, -⟩
    exact ⟨congrArg List.length hcode, congrArg List.length habi⟩
  · rintro ⟨hcode, habi⟩
    unfold Deployment.text at htext
    rw [List.append_assoc, List.append_assoc] at htext
    obtain ⟨h1, hrest⟩ := List.append_inj htext hcode
    obtain ⟨h2, h3⟩ := List.append_inj hrest habi
    exact ⟨h1, h2, h3⟩

end

/-- In every state there is one contract for an address at most, and operations treat a contract as
its owner wishes.  An address identifies the content exactly as long as no two deployments divide
the same text in different places, since the hash is taken of the texts one after the other. -/
theorem contract_registry (vm : Machine) (hsha : Function.Injective vm.sha256)
    (ops : List ContractOperation) :
    OnePerAddress (runOperations vm ops) ∧
    (∀ op id c, (runOperations vm ops).find id = some c →
      MayBecome op c ((runOperations vm (ops ++ [op])).find id)) ∧
    (AddressesIdentify (acceptedDeployments vm Table.empty ops) ↔
      DividedAlike (acceptedDeployments vm Table.empty ops)) := by
  refine ⟨?_, fun op id c hc => ?_, ?_⟩
  · refine onePerAddress_foldl (fun id id' c c' hc => ?_) ops
    exact absurd (Table.find_iff_mem.mp hc) List.not_mem_nil
  · have hstep : runOperations vm (ops ++ [op]) = step vm (runOperations vm ops) op := by
      rw [runOperations, List.foldl_append]
      rfl
    rw [hstep]
    rcases step_cases vm (runOperations vm ops) op with hok | heq
    · exact mayBecome_apply hok hc
    · rw [heq, hc]
      exact Respects.refl op c
  · constructor
    · intro h o ho o' ho' htext
      refine (Deployment.text_eq_iff htext).mp (h o ho o' ho' ?_)
      rw [acceptedDeployments_addr ho, acceptedDeployments_addr ho', htext]
    · intro h o ho o' ho' haddr
      rw [acceptedDeployments_addr ho, acceptedDeployments_addr ho'] at haddr
      exact (Deployment.text_eq_iff (hsha haddr)).mpr (h o ho o' ho' (hsha haddr))

/-! ### Two contracts at one address -/

/-- A bytecode, an interface without functions, and the arguments of a constructor. -/
def sampleText : Text := "6080604052[] []".toUTF8.toList

/-- The digest of the text in hexadecimal digits. -/
def sampleDigest : Text :=
  "70b107e86aa298b1393d64b4fa9f1f4c5302a598ab31a2810b0a18e11437750e".toUTF8.toList

/-- A machine whose contracts keep the data that they were constructed or called with.  On the text
the hash is that of `fc::sha256`; other texts are hashed to themselves behind a zero. -/
def sampleMachine : Machine where
  sha256 text := if text = sampleText then sampleDigest else 0 :: text
  constructSmartContract _ _ constructData _ := some constructData
  callSmartContract _ _ callData _ _ := some callData

theorem sampleMachine_sha256_injective : Function.Injective sampleMachine.sha256 := by
  have hdigest : ∀ text : Text, sampleDigest ≠ 0 :: text := by
    intro text heq
    have hhead := congrArg List.head? heq
    rw [List.head?_cons] at hhead
    exact absurd hhead (by decide +kernel)
  intro a b hab
  simp only [sampleMachine] at hab
  split at hab
  · rename_i ha
    split at hab
    · rename_i hb
      rw [ha, hb]
    · exact absurd hab (hdigest b)
  · split at hab
    · exact absurd hab.symm (hdigest a)
    · exact (List.cons.inj hab).2

/-- The text with the space at the end of the interface. -/
def abiDeployment : Deployment :=
  ⟨5, sampleDigest, "6080604052".toUTF8.toList, "[] ".toUTF8.toList, "[]".toUTF8.toList, []⟩

/-- The text with the space at the start of the arguments. -/
def dataDeployment : Deployment :=
  ⟨6, sampleDigest, "6080604052".toUTF8.toList, "[]".toUTF8.toList, " []".toUTF8.toList, []⟩

/-- A contract is deployed, called, switched off and killed. -/
def oneContract : List ContractOperation :=
  [.deploy abiDeployment, .call 9 sampleDigest [1], .deactivate 5 sampleDigest,
    .kill 5 sampleDigest, .deploy abiDeployment]

theorem contract_registry_one :
    OnePerAddress (runOperations sampleMachine oneContract) ∧
    acceptedDeployments sampleMachine Table.empty oneContract = [abiDeployment, abiDeployment] ∧
    AddressesIdentify (acceptedDeployments sampleMachine Table.empty oneContract) := by
  have h := contract_registry sampleMachine sampleMachine_sha256_injective oneContract
  have haccepted : acceptedDeployments sampleMachine Table.empty oneContract =
      [abiDeployment, abiDeployment] := by decide +kernel
  refine ⟨h.1, haccepted, h.2.2.mpr ?_⟩
  rw [haccepted]
  unfold DividedAlike
  decide +kernel

/-- After a kill another owner deploys other content at the same address. -/
theorem address_of_other_content :
    acceptedDeployments sampleMachine Table.empty
      [.deploy abiDeployment, .kill 5 sampleDigest, .deploy dataDeployment] =
        [abiDeployment, dataDeployment] ∧
    abiDeployment.contractAddr = dataDeployment.contractAddr ∧
    abiDeployment.abiJson ≠ dataDeployment.abiJson ∧
    abiDeployment.constructData ≠ dataDeployment.constructData := by
  decide +kernel

end Nestchain.Contracts
