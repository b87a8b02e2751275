import Mathlib

/-! # Flow control of the light protocol

`les/flowcontrol/control.go` and the check `reject` of `les/handler.go`: a server keeps a
buffer for each client, recharges it with time and charges every request to it. What the
client manager reports at the end of a request is part of the request here. -/
namespace Bgmchain.Les

structure ServerParams where
  bufLimit : UInt64
  minRecharge : UInt64

/-- A millisecond in nanoseconds. -/
def fcTimeConst : UInt64 := 1000000

/-- The server's view of a client. -/
structure ClientNode where
  bufValue : UInt64
  lastTime : Int64
deriving DecidableEq

structure RequestCosts where
  baseCost : UInt64
  reqCost : UInt64

/-- A request with its entry of the cost table and the limit of its type, the times at which
it is accepted and done, and the recharge value that the manager then reports. -/
structure Request where
  costs : RequestCosts
  reqCnt : UInt64
  maxCnt : UInt64
  accepted : Int64
  processed : Int64
  rcValue : UInt64

def Request.cost (r : Request) : UInt64 := r.costs.baseCost + r.reqCnt * r.costs.reqCost

def newClientNode (params : ServerParams) (now : Int64) : ClientNode := ⟨params.bufLimit, now⟩

section
variable (params : ServerParams)

/-- The time since `lastTime`, the `dt` of `recalcBV`. -/
def elapsed (lastTime time : Int64) : UInt64 := if time < lastTime then 0 else (time - lastTime).toUInt64

/-- A buffer with what it is recharged by, the rest of `recalcBV`. -/
def recalc (buf : UInt64) (dt : UInt64) : UInt64 :=
  let buf := buf + params.minRecharge * dt / fcTimeConst
  if buf > params.bufLimit then params.bufLimit else buf

def ClientNode.recalcBV (peer : ClientNode) (time : Int64) : ClientNode :=
  ⟨recalc params peer.bufValue (elapsed peer.lastTime time), time⟩

/-- The check `reject`: whether it rejects, and the client that it leaves. `none` is the
division by zero in the waiting time that it logs. -/
def reject (r : Request) : Option ClientNode → Option (Bool × Option ClientNode)
  | none => some (true, none)
  | some fcClient =>
    if r.reqCnt > r.maxCnt then some (true, some fcClient)
    else
      let fcClient := fcClient.recalcBV params r.accepted
      let cost := if r.cost > params.bufLimit then params.bufLimit else r.cost
      if cost > fcClient.bufValue then
        if params.minRecharge = 0 then none else some (true, some fcClient)
      else some (false, some fcClient)

def ClientNode.requestProcessed (peer : ClientNode) (time : Int64) (cost rcValue : UInt64) : ClientNode :=
  let peer := peer.recalcBV params time
  let peer := { peer with bufValue := peer.bufValue - cost }
  let peer := peer.recalcBV params time
  if rcValue < params.bufLimit then
    let bv := params.bufLimit - rcValue
    if bv > peer.bufValue then { peer with bufValue := bv } else peer
  else peer

/-- The buffer that the manager grants with its report. -/
def granted (rcValue : UInt64) : Nat :=
  if rcValue < params.bufLimit then params.bufLimit.toNat - rcValue.toNat else 0

/-- The buffer that a charge should leave of `b`. -/
def charge (b cost rcValue : UInt64) : Nat :=
  min params.bufLimit.toNat (max (b.toNat - cost.toNat) (granted params rcValue))

/-- The buffer after the request is the one it should be, and not larger than after any
cheaper request. -/
def Charged (peer : ClientNode) (r : Request) : Prop :=
  let after cost := (peer.requestProcessed params r.processed cost r.rcValue).bufValue.toNat
  after r.cost = charge params (peer.recalcBV params r.processed).bufValue r.cost r.rcValue ∧
    ∀ cheaper ≤ r.cost, after r.cost ≤ after cheaper

/-- The cost is in the buffer, or else the manager grants what the difference wraps to. -/
def Covered (peer : ClientNode) (r : Request) : Prop :=
  let b := (peer.recalcBV params r.processed).bufValue
  r.cost ≤ b ∨ min (2 ^ 64 + b.toNat - r.cost.toNat) params.bufLimit.toNat ≤ granted params r.rcValue

/-- Every request of a run has the property, as long as the server admits them. -/
def Throughout (p : ClientNode → Request → Prop) : ClientNode → List Request → Prop
  | _, [] => True
  | peer, r :: rs => ∀ peer', reject params r (some peer) = some (false, some peer') →
      p peer' r ∧ Throughout p (peer'.requestProcessed params r.processed r.cost r.rcValue) rs

variable {params} {peer : ClientNode} {r : Request} {buf dt : UInt64} {time : Int64}

theorem recalc_toNat : (recalc params buf dt).toNat =
    min params.bufLimit.toNat (buf + params.minRecharge * dt / fcTimeConst).toNat := by
  simp only [recalc, gt_iff_lt, UInt64.lt_iff_toNat_lt]
  split <;> omega

theorem elapsed_self : elapsed time time = 0 := by
  simp [elapsed, show Int64.toUInt64 0 = 0 from rfl]

/-- What the code makes of a charge, with the difference as it wraps. -/
theorem requestProcessed_bufValue (cost rcValue : UInt64) :
    (peer.requestProcessed params time cost rcValue).bufValue.toNat =
      max (min params.bufLimit.toNat ((peer.recalcBV params time).bufValue - cost).toNat) (granted params rcValue) := by
  simp only [ClientNode.requestProcessed, ClientNode.recalcBV, elapsed_self, granted]
  set rest := recalc params (recalc params peer.bufValue (elapsed peer.lastTime time) - cost) 0 with hrest
  have hn : rest.toNat = min params.bufLimit.toNat
      (recalc params peer.bufValue (elapsed peer.lastTime time) - cost).toNat := by
    rw [hrest, recalc_toNat]
    simp
  rw [← hn]
  by_cases hr : rcValue < params.bufLimit
  · have hbv := UInt64.toNat_sub_of_le params.bufLimit rcValue (UInt64.le_of_lt hr)
    rw [if_pos hr, if_pos hr, ← hbv]
    simp only [gt_iff_lt, UInt64.lt_iff_toNat_lt]
    split <;> simp <;> omega
  · rw [if_neg hr, if_neg hr, Nat.max_zero]

/-- A charge is right just where it is covered: below the cost the difference wraps to a
buffer that is capped again, and nothing else is wrong. -/
theorem charged_iff_covered : Charged params peer r ↔ Covered params peer r := by
  simp only [Charged, Covered, charge, requestProcessed_bufValue, UInt64.le_iff_toNat_le]
  set b := (peer.recalcBV params r.processed).bufValue
  have hb : b.toNat ≤ params.bufLimit.toNat := by
    have := @recalc_toNat params peer.bufValue (elapsed peer.lastTime r.processed)
    simp only [b, ClientNode.recalcBV]
    omega
  have hgranted : granted params r.rcValue ≤ params.bufLimit.toNat := by
    simp only [granted]
    split <;> omega
  have hsub (c : UInt64) : (b - c).toNat = if c.toNat ≤ b.toNat then b.toNat - c.toNat else 2 ^ 64 + b.toNat - c.toNat := by
    have := c.toNat_lt
    have := b.toNat_lt
    rw [UInt64.toNat_sub]
    split <;> omega
  have hlt := r.cost.toNat_lt
  simp only [hsub]
  clear_value b
  constructor
  · rintro ⟨h, -⟩
    split at h <;> omega
  · intro h
    refine ⟨by split <;> omega, fun cheaper hle => ?_⟩
    have := cheaper.toNat_lt
    split <;> split <;> omega

theorem throughout_iff {p q : ClientNode → Request → Prop} (h : ∀ peer r, p peer r ↔ q peer r) (rs : List Request) :
    Throughout params p peer rs ↔ Throughout params q peer rs := by
  induction rs generalizing peer with
  | nil => rfl
  | cons r rs ih => simp only [Throughout, h, ih]

/-- Every admitted request of a run is charged as it should be just if every one is
covered. -/
theorem charging_iff (params : ServerParams) (now : Int64) (rs : List Request) :
    Throughout params (Charged params) (newClientNode params now) rs ↔
      Throughout params (Covered params) (newClientNode params now) rs :=
  throughout_iff (fun _ _ => charged_iff_covered) rs

/-- A request for one more than the limit is admitted with a full buffer and leaves it full. -/
theorem costly_request_free :
    let params : ServerParams := ⟨100, 1⟩
    let r : Request := ⟨⟨1, 100⟩, 1, 192, 0, 100, 100⟩
    let peer := newClientNode params 0
    reject params r (some peer) = some (false, some peer) ∧
      (peer.requestProcessed params 100 r.cost 100).bufValue = 100 ∧
      charge params 100 r.cost 100 = 0 ∧
      (peer.requestProcessed params 100 1 100).bufValue = 99 ∧
      ¬ Throughout params (Charged params) peer [r] := by
  intro params r peer
  have hreject : reject params r (some peer) = some (false, some peer) := by
    decide +kernel
  refine ⟨hreject, by decide +kernel, by decide +kernel, by decide +kernel, fun h => ?_⟩
  obtain ⟨⟨hcharged, -⟩, -⟩ := h peer hreject
  revert hcharged
  decide +kernel

end
end Bgmchain.Les
