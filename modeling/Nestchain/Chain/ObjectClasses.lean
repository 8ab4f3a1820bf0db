import Nestchain.Db.Persistence

/-! The classes of the objects that are kept in memory: their members, and the lists of members by
which `fc::raw` packs them.  The lists are maintained by hand, beside the classes. -/

namespace Nestchain.Chain

open Db

/-! ### Members and reflected members -/

/-- A class of objects.  `reflected` is its `FC_REFLECT_DERIVED` list; a member that is missing in
the list of a class that occurs within this one is listed with its path. -/
structure ObjectClass where
  index : IndexId
  members : List String
  reflected : List String

def accountObject : ObjectClass where
  index := ⟨1, 2⟩
  members :=
    ["membership_expiration_date", "registrar", "referrer", "lifetime_referrer",
      "network_fee_percentage", "lifetime_referrer_fee_percentage",
      "referrer_rewards_percentage", "name", "owner", "active", "options", "statistics",
      "whitelisting_accounts", "whitelisted_accounts", "blacklisted_accounts",
      "blacklisting_accounts", "cashback_vb", "owner_special_authority",
      "active_special_authority", "top_n_control_flags", "allowed_assets"]
  reflected :=
    ["membership_expiration_date", "registrar", "referrer", "lifetime_referrer",
      "network_fee_percentage", "lifetime_referrer_fee_percentage",
      "referrer_rewards_percentage", "name", "owner", "active", "options", "statistics",
      "whitelisting_accounts", "blacklisting_accounts", "whitelisted_accounts",
      "blacklisted_accounts", "cashback_vb", "owner_special_authority",
      "active_special_authority", "top_n_control_flags", "allowed_assets"]

def assetObject : ObjectClass where
  index := ⟨1, 3⟩
  members :=
    ["symbol", "precision", "issuer", "options", "dynamic_asset_data_id", "bitasset_data_id",
      "buyback_account"]
  reflected :=
    ["symbol", "precision", "issuer", "options", "dynamic_asset_data_id", "bitasset_data_id",
      "buyback_account"]

def forceSettlementObject : ObjectClass where
  index := ⟨1, 4⟩
  members := ["owner", "balance", "settlement_date"]
  reflected := ["owner", "balance", "settlement_date"]

def committeeMemberObject : ObjectClass where
  index := ⟨1, 5⟩
  members := ["committee_member_account", "vote_id", "total_votes", "url"]
  reflected := ["committee_member_account", "vote_id", "total_votes", "url"]

def witnessObject : ObjectClass where
  index := ⟨1, 6⟩
  members :=
    ["witness_account", "last_aslot", "signing_key", "pay_vb", "vote_id", "total_votes",
      "url", "total_missed", "last_confirmed_block_num"]
  reflected :=
    ["witness_account", "last_aslot", "signing_key", "pay_vb", "vote_id", "total_votes",
      "url", "total_missed", "last_confirmed_block_num"]

def limitOrderObject : ObjectClass where
  index := ⟨1, 7⟩
  members :=
    ["expiration", "seller", "for_sale", "sell_price", "deferred_fee", "deferred_paid_fee"]
  reflected :=
    ["expiration", "seller", "for_sale", "sell_price", "deferred_fee", "deferred_paid_fee"]

def callOrderObject : ObjectClass where
  index := ⟨1, 8⟩
  members := ["borrower", "collateral", "debt", "call_price", "target_collateral_ratio"]
  reflected := ["borrower", "collateral", "debt", "call_price", "target_collateral_ratio"]

def proposalObject : ObjectClass where
  index := ⟨1, 10⟩
  members :=
    ["expiration_time", "review_period_time", "proposed_transaction",
      "proposed_transaction.new_parameters.witness_pay_vesting_seconds",
      "required_active_approvals", "available_active_approvals", "required_owner_approvals",
      "available_owner_approvals", "available_key_approvals", "proposer", "fail_reason"]
  reflected :=
    ["expiration_time", "review_period_time", "proposed_transaction",
      "required_active_approvals", "available_active_approvals", "required_owner_approvals",
      "available_owner_approvals", "available_key_approvals", "proposer"]

def operationHistoryObject : ObjectClass where
  index := ⟨1, 11⟩
  members :=
    ["op", "op.new_parameters.witness_pay_vesting_seconds", "result", "block_num",
      "trx_in_block", "op_in_trx", "virtual_op"]
  reflected := ["op", "result", "block_num", "trx_in_block", "op_in_trx", "virtual_op"]

def withdrawPermissionObject : ObjectClass where
  index := ⟨1, 12⟩
  members :=
    ["withdraw_from_account", "authorized_account", "withdrawal_limit",
      "withdrawal_period_sec", "period_start_time", "expiration", "claimed_this_period"]
  reflected :=
    ["withdraw_from_account", "authorized_account", "withdrawal_limit",
      "withdrawal_period_sec", "period_start_time", "expiration", "claimed_this_period"]

def vestingBalanceObject : ObjectClass where
  index := ⟨1, 13⟩
  members := ["owner", "balance", "policy"]
  reflected := ["owner", "balance", "policy"]

def workerObject : ObjectClass where
  index := ⟨1, 14⟩
  members :=
    ["worker_account", "work_begin_date", "work_end_date", "daily_pay", "worker", "name",
      "url", "vote_for", "vote_against", "total_votes_for", "total_votes_against"]
  reflected :=
    ["worker_account", "work_begin_date", "work_end_date", "daily_pay", "worker", "vote_for",
      "vote_against", "total_votes_for", "total_votes_against", "name", "url"]

def balanceObject : ObjectClass where
  index := ⟨1, 15⟩
  members := ["owner", "balance", "vesting_policy", "last_claim_date"]
  reflected := ["owner", "balance", "vesting_policy", "last_claim_date"]

def contractObject : ObjectClass where
  index := ⟨1, 16⟩
  members :=
    ["owner", "contract_addr", "bytecode", "abi_json", "construct_data", "contract_name",
      "state", "activated", "contract_state", "options"]
  reflected :=
    ["owner", "contract_addr", "bytecode", "abi_json", "construct_data", "contract_name",
      "activated", "contract_state"]

def globalPropertyObject : ObjectClass where
  index := ⟨2, 0⟩
  members :=
    ["parameters", "parameters.witness_pay_vesting_seconds", "pending_parameters",
      "pending_parameters.witness_pay_vesting_seconds", "next_available_vote_id",
      "active_committee_members", "active_witnesses"]
  reflected :=
    ["parameters", "pending_parameters", "next_available_vote_id", "active_committee_members",
      "active_witnesses"]

def dynamicGlobalPropertyObject : ObjectClass where
  index := ⟨2, 1⟩
  members :=
    ["head_block_number", "head_block_id", "time", "current_witness", "next_maintenance_time",
      "last_budget_time", "witness_budget", "accounts_registered_this_interval",
      "recently_missed_count", "current_aslot", "recent_slots_filled", "dynamic_flags",
      "last_irreversible_block_num"]
  reflected :=
    ["head_block_number", "head_block_id", "time", "current_witness", "next_maintenance_time",
      "last_budget_time", "witness_budget", "accounts_registered_this_interval",
      "recently_missed_count", "current_aslot", "recent_slots_filled", "dynamic_flags",
      "last_irreversible_block_num"]

def assetDynamicDataObject : ObjectClass where
  index := ⟨2, 3⟩
  members := ["current_supply", "confidential_supply", "accumulated_fees", "fee_pool"]
  reflected := ["current_supply", "confidential_supply", "accumulated_fees", "fee_pool"]

def assetBitassetDataObject : ObjectClass where
  index := ⟨2, 4⟩
  members :=
    ["asset_id", "options", "feeds", "current_feed", "current_feed_publication_time",
      "is_prediction_market", "force_settled_volume", "settlement_price", "settlement_fund",
      "asset_cer_updated", "feed_cer_updated"]
  reflected :=
    ["asset_id", "feeds", "current_feed", "current_feed_publication_time", "options",
      "force_settled_volume", "is_prediction_market", "settlement_price", "settlement_fund",
      "asset_cer_updated", "feed_cer_updated"]

def accountBalanceObject : ObjectClass where
  index := ⟨2, 5⟩
  members := ["owner", "asset_type", "balance", "maintenance_flag"]
  reflected := ["owner", "asset_type", "balance", "maintenance_flag"]

def accountStatisticsObject : ObjectClass where
  index := ⟨2, 6⟩
  members :=
    ["owner", "name", "most_recent_op", "total_ops", "removed_ops", "total_core_in_orders",
      "core_in_balance", "has_cashback_vb", "is_voting", "lifetime_fees_paid", "pending_fees",
      "pending_vested_fees"]
  reflected :=
    ["owner", "name", "most_recent_op", "total_ops", "removed_ops", "total_core_in_orders",
      "core_in_balance", "has_cashback_vb", "is_voting", "lifetime_fees_paid", "pending_fees",
      "pending_vested_fees"]

def transactionObject : ObjectClass where
  index := ⟨2, 7⟩
  members := ["trx", "trx.new_parameters.witness_pay_vesting_seconds", "trx_id"]
  reflected := ["trx", "trx_id"]

def blockSummaryObject : ObjectClass where
  index := ⟨2, 8⟩
  members := ["block_id"]
  reflected := ["block_id"]

def accountTransactionHistoryObject : ObjectClass where
  index := ⟨2, 9⟩
  members := ["account", "operation_id", "sequence", "next"]
  reflected := ["account", "operation_id", "sequence", "next"]

def blindedBalanceObject : ObjectClass where
  index := ⟨2, 10⟩
  members := ["commitment", "asset_id", "owner"]
  reflected := ["commitment", "asset_id", "owner"]

def chainPropertyObject : ObjectClass where
  index := ⟨2, 11⟩
  members := ["chain_id", "immutable_parameters"]
  reflected := ["chain_id", "immutable_parameters"]

def witnessScheduleObject : ObjectClass where
  index := ⟨2, 12⟩
  members := ["current_shuffled_witnesses"]
  reflected := ["current_shuffled_witnesses"]

def budgetRecordObject : ObjectClass where
  index := ⟨2, 13⟩
  members := ["time", "record"]
  reflected := ["time", "record"]

def specialAuthorityObject : ObjectClass where
  index := ⟨2, 14⟩
  members := ["account"]
  reflected := ["account"]

def buybackObject : ObjectClass where
  index := ⟨2, 15⟩
  members := ["asset_to_buy"]
  reflected := ["asset_to_buy"]

def fbaAccumulatorObject : ObjectClass where
  index := ⟨2, 16⟩
  members := ["accumulated_fba_fees", "designated_asset"]
  reflected := ["accumulated_fba_fees", "designated_asset"]

def collateralBidObject : ObjectClass where
  index := ⟨2, 17⟩
  members := ["bidder", "inv_swan_price"]
  reflected := ["bidder", "inv_swan_price"]

def marketTickerObject : ObjectClass where
  index := ⟨5, 2⟩
  members :=
    ["base", "quote", "last_day_base", "last_day_quote", "latest_base", "latest_quote",
      "base_volume", "quote_volume"]
  reflected :=
    ["base", "quote", "last_day_base", "last_day_quote", "latest_base", "latest_quote",
      "base_volume", "quote_volume"]

def marketTickerMetaObject : ObjectClass where
  index := ⟨5, 3⟩
  members := ["rolling_min_order_his_id", "skip_min_order_his_id"]
  reflected := ["rolling_min_order_his_id", "skip_min_order_his_id"]

def objectClasses : List ObjectClass :=
  [accountObject, assetObject, forceSettlementObject, committeeMemberObject, witnessObject,
    limitOrderObject, callOrderObject, proposalObject, operationHistoryObject,
    withdrawPermissionObject, vestingBalanceObject, workerObject, balanceObject, contractObject,
    globalPropertyObject, dynamicGlobalPropertyObject, assetDynamicDataObject,
    assetBitassetDataObject, accountBalanceObject, accountStatisticsObject, transactionObject,
    blockSummaryObject, accountTransactionHistoryObject, blindedBalanceObject,
    chainPropertyObject, witnessScheduleObject, budgetRecordObject, specialAuthorityObject,
    buybackObject, fbaAccumulatorObject, collateralBidObject, marketTickerObject,
    marketTickerMetaObject]

def classOf (i : IndexId) : ObjectClass :=
  (objectClasses.find? fun c => c.index = i).getD ⟨i, [], []⟩

/-- `primary_index` of each class, in the order of `object_database::flush`. -/
def indexes : List IndexId := objectClasses.map ObjectClass.index

theorem nodup_indexes : indexes.Nodup := by decide

def droppedMembers : List (IndexId × String) :=
  [(proposalObject.index, "proposed_transaction.new_parameters.witness_pay_vesting_seconds"),
    (proposalObject.index, "fail_reason"),
    (operationHistoryObject.index, "op.new_parameters.witness_pay_vesting_seconds"),
    (contractObject.index, "state"),
    (contractObject.index, "options"),
    (globalPropertyObject.index, "parameters.witness_pay_vesting_seconds"),
    (globalPropertyObject.index, "pending_parameters.witness_pay_vesting_seconds"),
    (transactionObject.index, "trx.new_parameters.witness_pay_vesting_seconds")]

theorem dropped_iff : ∀ i ∈ indexes, ∀ f ∈ (classOf i).members,
    f ∉ (classOf i).reflected ↔ (i, f) ∈ droppedMembers := by
  decide +kernel

theorem members_of_dropped : ∀ d ∈ droppedMembers, d.2 ∈ (classOf d.1).members ∧ d.1 ∈ indexes := by
  decide +kernel

/-! ### Packing -/

section

variable {W Bytes : Type}

/-- The values of the members of an object. -/
abbrev Object (W : Type) := String → W

/-- `fc::raw` for an id and the values of the members in a list. -/
structure Raw (W Bytes : Type) where
  pack : ObjectId → List W → Bytes
  unpack : IndexId → Bytes → Option (ObjectId × List W)
  unpack_pack : ∀ a ws, ws.length = (classOf a.index).reflected.length →
    unpack a.index (pack a ws) = some (a, ws)

variable (raw : Raw W Bytes) (fresh : IndexId → Object W)

/-- An object of an index, fresh but for the members that are read. -/
def assign (i : IndexId) (ws : List W) : Object W := fun f =>
  (((classOf i).reflected.zip ws).lookup f).getD (fresh i f)

def packer : Packer (Object W) Bytes where
  pack a o := raw.pack a ((classOf a.index).reflected.map o)
  unpack i bytes := (raw.unpack i bytes).map fun r => (r.1, assign fresh r.1.index r.2)

def restored (a : ObjectId) (o : Object W) : Object W := fun f =>
  if f ∈ (classOf a.index).reflected then o f else fresh a.index f

theorem lookup_zip_map (l : List String) (o : Object W) (f : String) :
    (l.zip (l.map o)).lookup f = if f ∈ l then some (o f) else none := by
  induction l with
  | nil => rfl
  | cons g l ih =>
    rw [List.map_cons, List.zip_cons_cons, List.lookup_cons]
    by_cases hf : f = g
    · subst hf
      simp
    · rw [beq_eq_false_iff_ne.mpr hf]
      simp only [ih, List.mem_cons, hf, false_or]

theorem packer_restores : (packer raw fresh).Restores (restored fresh) := by
  intro a o
  dsimp only [packer]
  rw [raw.unpack_pack a _ (List.length_map ..), Option.map_some]
  refine congrArg some (Prod.ext rfl (funext fun f => ?_))
  dsimp only
  rw [assign, lookup_zip_map, restored]
  split
  · rfl
  · rfl

end

end Nestchain.Chain
