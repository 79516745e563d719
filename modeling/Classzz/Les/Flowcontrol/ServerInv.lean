import Mathlib
import Classzz.Les.Flowcontrol.RechargeInv
import Classzz.Les.Flowcontrol.Server

/-!
# What the server's client nodes keep

Over the manager's bookkeeping (`ClientManager.Inv`) the server keeps two facts of its own
(`Server.Inv`): a node has its own fields exactly when the manager knows it, and every update on
a node's schedule has a positive `MinRecharge`, which the manager divides by once the update is
applied. Each method of `ClientNode` keeps them, and so `update`, which applies the scheduled
updates one by one, never hands the manager a zero rate (`Inv.update`). From a new manager with
no nodes, no run of calls the server may make panics (`run_newServer`).

Every value `BufferStatus` reports is at most the limit it reports with it
(`BufferStatus_le`): `update` ends by recharging, which caps the buffer value at `BufLimit`, and
the manager only raises it to the corrected value, which it keeps at most `BufLimit`.
-/

namespace Classzz.Flowcontrol

/-- A value capped at a limit is at most the limit. -/
theorem ite_gt_le (v lim : Int64) : (if v > lim then lim else v) ≤ lim := by
  split_ifs with hgt
  · exact Int64.le_refl _
  · exact Int64.not_lt.mp hgt

/-- `recalcBV` leaves the buffer value at most `BufLimit`, whatever the wrap-around of its sum. -/
theorem ClientNode.bufValue_recalcBV_le (node : ClientNode) (now : Int64) :
    (node.recalcBV now).bufValue ≤ node.params.bufLimit.toInt64 :=
  ite_gt_le _ _

/-- A non-negative buffer value at most a limit read as `int64` is at most the limit. -/
theorem toUInt64_le_of_le_toInt64 {a : Int64} {b : UInt64} (h0 : 0 ≤ a) (h : a ≤ b.toInt64) :
    a.toUInt64 ≤ b := by
  rw [Int64.le_iff_toInt_le] at h0 h
  rw [UInt64.le_iff_toNat_le]
  -- both sides as the signed reading of their 64 bits
  have ha : a.toInt = (a.toUInt64.toNat : ℤ).bmod (2 ^ 64) := by
    rw [← Int64.toNat_toBitVec, ← BitVec.toInt_eq_toNat_bmod]
    rfl
  have hb : b.toInt64.toInt = (b.toNat : ℤ).bmod (2 ^ 64) := by
    rw [← UInt64.toNat_toBitVec, ← BitVec.toInt_eq_toNat_bmod]
    rfl
  have h1 := a.toUInt64.toNat_lt
  have h2 := b.toNat_lt
  simp only [Int.bmod] at ha hb
  rw [Int64.toInt_zero] at h0
  omega

namespace Recharge

variable {ι : Type} [DecidableEq ι]

namespace Server

/-- What the server keeps: the manager's bookkeeping, a node's own fields for exactly the nodes
the manager knows, and a positive `MinRecharge` in every scheduled update. -/
structure Inv (s : Server ι) : Prop where
  cm : s.cm.Inv
  known : ∀ n, s.clients n = none ↔ s.cm.nodes n = none
  schedule : ∀ n c, s.clients n = some c → ∀ u ∈ c.updateSchedule, u.params.minRecharge ≠ 0

@[simp] theorem clients_setClient (s : Server ι) (n : ι) (c : ClientSide) :
    (s.setClient n c).clients = Function.update s.clients n (some c) := rfl

@[simp] theorem cm_setClient (s : Server ι) (n : ι) (c : ClientSide) :
    (s.setClient n c).cm = s.cm := rfl

theorem setClient_ne_none (s : Server ι) (n : ι) (c : ClientSide) :
    (s.setClient n c).clients n ≠ none := by
  simp

@[simp] theorem nodes_setBufValue (s : Server ι) (n : ι) (node : Node) (v : Int64) :
    (s.setBufValue n node v).cm.nodes = Function.update s.cm.nodes n (some { node with bufValue := v }) :=
  rfl

theorem setBufValue_ne_none (s : Server ι) (n : ι) (node : Node) (v : Int64) :
    (s.setBufValue n node v).cm.nodes n ≠ none := by
  simp

variable {s : Server ι}

theorem Inv.node_ne_none (h : s.Inv) {n : ι} (hn : s.clients n ≠ none) : s.cm.nodes n ≠ none :=
  fun h' => hn ((h.known n).mpr h')

/-- A call of the manager that keeps the nodes it knows. -/
theorem Inv.withCm (h : s.Inv) {cm : ClientManager ι} (hcm : cm.Inv)
    (hsame : ClientManager.SameNodes s.cm cm) : ({ s with cm } : Server ι).Inv :=
  ⟨hcm, fun n => (h.known n).trans (hsame n).symm, h.schedule⟩

theorem Inv.setBufValue (h : s.Inv) {n : ι} {node : Node} (hnode : s.cm.nodes n = some node)
    (v : Int64) : (s.setBufValue n node v).Inv :=
  h.withCm (h.cm.setBufValue hnode v)
    (ClientManager.sameNodes_update (by rw [hnode]; exact Option.some_ne_none _) rfl)

theorem Inv.setClient (h : s.Inv) {n : ι} (hn : s.cm.nodes n ≠ none) {c : ClientSide}
    (hc : ∀ u ∈ c.updateSchedule, u.params.minRecharge ≠ 0) : (s.setClient n c).Inv where
  cm := h.cm
  known m := by
    show Function.update s.clients n (some c) m = none ↔ _
    by_cases hmn : m = n
    · subst hmn
      rw [Function.update_self]
      exact ⟨fun h' => absurd h' (Option.some_ne_none c), fun h' => absurd h' hn⟩
    · rw [Function.update_of_ne hmn]
      exact h.known m
  schedule m c' hm := by
    change Function.update s.clients n (some c) m = some c' at hm
    by_cases hmn : m = n
    · subst hmn
      rw [Function.update_self, Option.some.injEq] at hm
      exact hm ▸ hc
    · rw [Function.update_of_ne hmn] at hm
      exact h.schedule m c' hm

/-- A node's own fields changed but its schedule. -/
theorem Inv.setClient_of_schedule (h : s.Inv) {n : ι} {c d : ClientSide}
    (hc : s.clients n = some c) (hsched : d.updateSchedule = c.updateSchedule) :
    (s.setClient n d).Inv :=
  h.setClient (h.node_ne_none (by rw [hc]; exact Option.some_ne_none _))
    (hsched ▸ h.schedule n c hc)

/-! ### `update` -/

/-- `recalcBV` does not panic; it leaves the buffer value at most `BufLimit`. -/
theorem Inv.recalcBV (h : s.Inv) {n : ι} (hn : s.clients n ≠ none) (t : Int64) :
    ∃ s', s.recalcBV n t = some s' ∧ s'.Inv ∧ s'.clients n ≠ none ∧
      ∃ node, s'.cm.nodes n = some node ∧ node.bufValue ≤ node.params.bufLimit.toInt64 := by
  obtain ⟨c, hc⟩ := Option.ne_none_iff_exists'.mp hn
  obtain ⟨node, hnode⟩ := Option.ne_none_iff_exists'.mp (h.node_ne_none hn)
  have h₁ := h.setBufValue hnode ((view node c).recalcBV t).bufValue
  refine ⟨_, ?_,
    h₁.setClient_of_schedule (d := { c with lastTime := ((view node c).recalcBV t).lastTime }) hc rfl,
    ?_,
    { node with bufValue := ((view node c).recalcBV t).bufValue }, ?_,
    ClientNode.bufValue_recalcBV_le (view node c) t⟩
  · rw [Server.recalcBV, hnode, Option.bind_eq_bind, Option.bind_some, hc, Option.bind_eq_bind,
      Option.bind_some]
    rfl
  · exact setClient_ne_none _ _ _
  · exact Function.update_self ..

/-- The node's `updateParams` with a positive `MinRecharge` does not panic; it leaves the
node's own fields as they were. -/
theorem Inv.updateParams (h : s.Inv) {n : ι} (hn : s.clients n ≠ none) {params : ServerParams}
    (hmr : params.minRecharge ≠ 0) (now : Int64) :
    ∃ s', s.updateParams n params now = some s' ∧ s'.Inv ∧ s'.clients = s.clients := by
  obtain ⟨c, hc⟩ := Option.ne_none_iff_exists'.mp hn
  obtain ⟨node, hnode⟩ := Option.ne_none_iff_exists'.mp (h.node_ne_none hn)
  set s₁ := s.setBufValue n node ((view node c).updateParams params).bufValue with hs₁
  have h₁ : s₁.Inv := h.setBufValue hnode _
  have hnode₁ : s₁.cm.nodes n ≠ none := setBufValue_ne_none _ _ _ _
  obtain ⟨cm', hup, hcm', hsame⟩ := h₁.cm.updateParams hnode₁ hmr now
  refine ⟨{ s₁ with cm := cm' }, ?_, h₁.withCm hcm' hsame, rfl⟩
  rw [Server.updateParams, hnode, Option.bind_eq_bind, Option.bind_some, hc, Option.bind_eq_bind,
    Option.bind_some]
  dsimp only
  rw [← hs₁, hup]
  rfl

/-- The loop of `update` over a schedule of positive rates does not panic; by induction on the
schedule, one due update at a time. -/
theorem Inv.applyDue (now : Int64) (n : ι) :
    ∀ (l : List ScheduledUpdate) (s : Server ι), s.Inv → s.clients n ≠ none →
      (∀ u ∈ l, u.params.minRecharge ≠ 0) →
      ∃ s', applyDue now n s l = some s' ∧ s'.Inv ∧ s'.clients n ≠ none
  | [], s, h, hn, _ => by
    obtain ⟨c, hc⟩ := Option.ne_none_iff_exists'.mp hn
    refine ⟨_, ?_, h.setClient (h.node_ne_none hn) (c := { c with updateSchedule := [] })
      (fun _ hu => absurd hu List.not_mem_nil), ?_⟩
    · rw [Server.applyDue, hc, Option.bind_eq_bind, Option.bind_some]
      rfl
    · exact setClient_ne_none _ _ _
  | u :: rest, s, h, hn, hl => by
    by_cases hdue : u.time ≤ now
    · -- due: recharge up to its time, apply it, and go on with the rest
      obtain ⟨s₁, hrc, h₁, hn₁, -⟩ := h.recalcBV hn u.time
      obtain ⟨s₂, hup, h₂, hclients⟩ :=
        h₁.updateParams hn₁ (hl u List.mem_cons_self) now
      obtain ⟨s', hrest, h', hn'⟩ := Inv.applyDue now n rest s₂ h₂ (by rw [hclients]; exact hn₁)
        fun v hv => hl v (List.mem_cons_of_mem u hv)
      refine ⟨s', ?_, h', hn'⟩
      rw [Server.applyDue, if_pos hdue, Option.bind_eq_bind, hrc, Option.bind_some, hup,
        Option.bind_some]
      exact hrest
    · obtain ⟨c, hc⟩ := Option.ne_none_iff_exists'.mp hn
      refine ⟨_, ?_, h.setClient (h.node_ne_none hn) (c := { c with updateSchedule := u :: rest })
        hl, ?_⟩
      · rw [Server.applyDue, if_neg hdue, hc, Option.bind_eq_bind, Option.bind_some]
        rfl
      · exact setClient_ne_none _ _ _

/-- `update` does not panic; it leaves the buffer value at most `BufLimit`. -/
theorem Inv.update (h : s.Inv) {n : ι} (hn : s.clients n ≠ none) (now : Int64) :
    ∃ s', s.update n now = some s' ∧ s'.Inv ∧ s'.clients n ≠ none ∧
      ∃ node, s'.cm.nodes n = some node ∧ node.bufValue ≤ node.params.bufLimit.toInt64 := by
  obtain ⟨c, hc⟩ := Option.ne_none_iff_exists'.mp hn
  obtain ⟨s₁, hdue, h₁, hn₁⟩ := Inv.applyDue now n c.updateSchedule s h hn (h.schedule n c hc)
  obtain ⟨s', hrc, h', hn', hle⟩ := h₁.recalcBV hn₁ now
  refine ⟨s', ?_, h', hn', hle⟩
  rw [Server.update, hc, Option.bind_eq_bind, Option.bind_some, Option.bind_eq_bind, hdue,
    Option.bind_some]
  exact hrc

/-! ### The methods -/

theorem Inv.NewClientNode (h : s.Inv) {n : ι} (hn : s.clients n = none) {params : ServerParams}
    (hmr : params.minRecharge ≠ 0) (now : Int64) :
    ∃ s', s.NewClientNode n params now = some s' ∧ s'.Inv := by
  obtain ⟨cm', hc, hcm', hn', hothers⟩ := h.cm.connect ((h.known n).mp hn) hmr now
  refine ⟨_, by rw [Server.NewClientNode, hc]; rfl, ⟨hcm', fun m => ?_, fun m c hm => ?_⟩⟩
  · show Function.update s.clients n _ m = none ↔ cm'.nodes m = none
    by_cases hmn : m = n
    · subst hmn
      rw [Function.update_self]
      exact ⟨fun h' => absurd h' (Option.some_ne_none _), fun h' => absurd h' hn'⟩
    · rw [Function.update_of_ne hmn, hothers m hmn]
      exact h.known m
  · change Function.update s.clients n _ m = some c at hm
    by_cases hmn : m = n
    · subst hmn
      rw [Function.update_self, Option.some.injEq] at hm
      subst hm
      exact fun _ hu => absurd hu List.not_mem_nil
    · rw [Function.update_of_ne hmn] at hm
      exact h.schedule m c hm

theorem Inv.Disconnect (h : s.Inv) {n : ι} (hn : s.clients n ≠ none) (now : Int64) :
    ∃ s', s.Disconnect n now = some s' ∧ s'.Inv := by
  obtain ⟨c, hc⟩ := Option.ne_none_iff_exists'.mp hn
  obtain ⟨cm', hd, hcm', hsame⟩ := h.cm.disconnect (h.node_ne_none hn) now
  have h₁ := h.withCm hcm' hsame
  refine ⟨_, ?_, h₁.setClient_of_schedule (d := { c with connected := false }) hc rfl⟩
  rw [Server.Disconnect, hc, Option.bind_eq_bind, Option.bind_some, hd, Option.bind_eq_bind,
    Option.bind_some]
  rfl

/-- `BufferStatus` on a connected node: the update, then the manager's correction. -/
theorem Inv.BufferStatus_connected (h : s.Inv) {n : ι} {c : ClientSide}
    (hc : s.clients n = some c) (hconn : c.connected = true) (now : Int64) :
    ∃ (s' : Server ι) (node : Node), s.BufferStatus n now = some (s', (if node.bufValue < 0 then 0 else
      node.bufValue).toUInt64, node.params.bufLimit) ∧ s'.Inv ∧
      node.bufValue ≤ node.params.bufLimit.toInt64 := by
  have hn : s.clients n ≠ none := by rw [hc]; exact Option.some_ne_none _
  obtain ⟨s₁, hup, h₁, -, node₁, hnode₁, hle₁⟩ := h.update hn now
  obtain ⟨cm', node', hub, hcm', hnode', -, -, hp', hbuf', hsame⟩ :=
    h₁.cm.updateBuffer hnode₁ 0 now
  refine ⟨{ s₁ with cm := cm' }, node', ?_, h₁.withCm hcm' hsame, ?_⟩
  · rw [Server.BufferStatus, hc, Option.bind_eq_bind, Option.bind_some, hconn]
    dsimp only [Bool.not_true, Bool.false_eq_true, ite_false]
    rw [Option.bind_eq_bind, hup, Option.bind_some, Option.bind_eq_bind, hub, Option.bind_some,
      Option.bind_eq_bind, hnode', Option.bind_some]
    rfl
  · -- the corrected value is at most the limit, and so is the recharged one
    rw [hp']
    rcases hbuf' with hb | hb <;> rw [hb]
    · exact hle₁
    · exact hp' ▸ (hcm'.wf n node' hnode').corr_le

theorem Inv.BufferStatus (h : s.Inv) {n : ι} (hn : s.clients n ≠ none) (now : Int64) :
    ∃ s' r, s.BufferStatus n now = some (s', r) ∧ s'.Inv := by
  obtain ⟨c, hc⟩ := Option.ne_none_iff_exists'.mp hn
  cases hconn : c.connected with
  | false =>
    refine ⟨s, (0, 0), ?_, h⟩
    rw [Server.BufferStatus, hc, Option.bind_eq_bind, Option.bind_some, hconn]
    rfl
  | true =>
    obtain ⟨s', node, hbs, h', -⟩ := h.BufferStatus_connected hc hconn now
    exact ⟨s', _, hbs, h'⟩

theorem Inv.OneTimeCost (h : s.Inv) {n : ι} (hn : s.clients n ≠ none) (cost : UInt64)
    (now : Int64) : ∃ s', s.OneTimeCost n cost now = some s' ∧ s'.Inv := by
  obtain ⟨s₁, hup, h₁, -, node₁, hnode₁, -⟩ := h.update hn now
  have h₂ := h₁.setBufValue hnode₁ (node₁.bufValue - cost.toInt64)
  obtain ⟨cm', -, hub, hcm', -, -, -, -, -, hsame⟩ :=
    h₂.cm.updateBuffer (Function.update_self ..) (-cost.toInt64) now
  refine ⟨_, ?_, h₂.withCm hcm' hsame⟩
  rw [Server.OneTimeCost, Option.bind_eq_bind, hup, Option.bind_some, Option.bind_eq_bind,
    hnode₁, Option.bind_some]
  dsimp only
  rw [Option.bind_eq_bind, hub, Option.bind_some]
  rfl

theorem Inv.AcceptRequest (h : s.Inv) {n : ι} (hn : s.clients n ≠ none) (index maxCost : UInt64)
    (now : Int64) : ∃ s' r, s.AcceptRequest n index maxCost now = some (s', r) ∧ s'.Inv := by
  obtain ⟨s₁, hup, h₁, hn₁, node₁, hnode₁, -⟩ := h.update hn now
  obtain ⟨c, hc⟩ := Option.ne_none_iff_exists'.mp hn₁
  rw [Server.AcceptRequest, Option.bind_eq_bind, hup, Option.bind_some, Option.bind_eq_bind,
    hnode₁, Option.bind_some, Option.bind_eq_bind, hc, Option.bind_some]
  split_ifs
  · exact ⟨s₁, (false, maxCost - node₁.bufValue.toUInt64, 0), rfl, h₁⟩
  · -- accepted: the cost off the buffer value, then the manager's `accepted`
    set c' : ClientSide := { c with
      sumCost := c.sumCost + maxCost
      accepted := Function.update c.accepted index (some (c.sumCost + maxCost)) }
    have h₂ := (h₁.setBufValue hnode₁ (node₁.bufValue - maxCost.toInt64)).setClient_of_schedule
      (d := c') hc rfl
    obtain ⟨cm', priority, hacc, hcm', hsame⟩ :=
      h₂.cm.accepted (n := n) (setBufValue_ne_none _ _ _ _) maxCost now
    refine ⟨_, (true, 0, priority), ?_, h₂.withCm hcm' hsame⟩
    dsimp only
    rw [Option.bind_eq_bind, hacc, Option.bind_some]
    rfl

theorem Inv.RequestProcessed (h : s.Inv) {n : ι} (hn : s.clients n ≠ none)
    (index maxCost realCost : UInt64) (now : Int64) :
    ∃ s' r, s.RequestProcessed n index maxCost realCost now = some (s', r) ∧ s'.Inv := by
  obtain ⟨s₁, hup, h₁, hn₁, node₁, hnode₁, -⟩ := h.update hn now
  obtain ⟨c, hc⟩ := Option.ne_none_iff_exists'.mp hn₁
  obtain ⟨cm', node', hpr, hcm', hnode', -, -, -, -, hsame⟩ := h₁.cm.updateBuffer hnode₁
    (maxCost - if realCost > maxCost then maxCost else realCost).toInt64 now
  have h₂ := h₁.withCm hcm' hsame
  set bv := node'.bufValue + (c.sumCost - (c.accepted index).getD 0).toInt64
  refine ⟨_, if bv < 0 then 0 else bv.toUInt64, ?_,
    h₂.setClient_of_schedule (d := { c with accepted := Function.update c.accepted index none })
      hc rfl⟩
  rw [Server.RequestProcessed, Option.bind_eq_bind, hup, Option.bind_some, Option.bind_eq_bind,
    ClientManager.processed, hpr, Option.bind_some, Option.bind_eq_bind, hnode', Option.bind_some,
    Option.bind_eq_bind, hc, Option.bind_some]
  rfl

theorem Inv.UpdateParams (h : s.Inv) {n : ι} (hn : s.clients n ≠ none) {params : ServerParams}
    (hmr : params.minRecharge ≠ 0) (now : Int64) :
    ∃ s', s.UpdateParams n params now = some s' ∧ s'.Inv := by
  obtain ⟨s₁, hup, h₁, hn₁, node₁, hnode₁, -⟩ := h.update hn now
  obtain ⟨c, hc⟩ := Option.ne_none_iff_exists'.mp hn₁
  have hknown : s₁.cm.nodes n ≠ none := by rw [hnode₁]; exact Option.some_ne_none _
  have hsched := h₁.schedule n c hc
  rw [Server.UpdateParams, Option.bind_eq_bind, hup, Option.bind_some, Option.bind_eq_bind,
    hnode₁, Option.bind_some, Option.bind_eq_bind, hc, Option.bind_some]
  split_ifs
  · -- a raise: applied now, the schedule dropped
    have h₂ := h₁.setClient hknown (c := { c with updateSchedule := [] })
      (fun _ hu => absurd hu List.not_mem_nil)
    obtain ⟨s', hupd, h', -⟩ := h₂.updateParams (setClient_ne_none _ _ _) hmr now
    exact ⟨s', hupd, h'⟩
  · -- a lowering: the schedule cut after an entry at or below it, or the lowering appended
    split
    · exact ⟨_, rfl, h₁.setClient hknown fun u hu => hsched u (List.mem_of_mem_take hu)⟩
    · refine ⟨_, rfl, h₁.setClient hknown fun u hu => ?_⟩
      rcases List.mem_append.mp hu with hu | hu
      · exact hsched u hu
      · rw [List.mem_singleton.mp hu]
        exact hmr

/-! ### Runs -/

/-- An enabled call does not panic and keeps what the server keeps. -/
theorem Inv.step (h : s.Inv) {call : Call ι} (he : s.Enabled call) :
    ∃ s', s.step call = some s' ∧ s'.Inv := by
  cases call with
  | newClientNode n params now => exact h.NewClientNode he.1 he.2.2 now
  | disconnect n now => exact h.Disconnect he now
  | bufferStatus n now =>
    obtain ⟨s', r, hbs, h'⟩ := h.BufferStatus he now
    exact ⟨s', by rw [Server.step, hbs]; rfl, h'⟩
  | oneTimeCost n cost now => exact h.OneTimeCost he cost now
  | acceptRequest n index maxCost now =>
    obtain ⟨s', r, hacc, h'⟩ := h.AcceptRequest he index maxCost now
    exact ⟨s', by rw [Server.step, hacc]; rfl, h'⟩
  | requestProcessed n index maxCost realCost now =>
    obtain ⟨s', r, hpr, h'⟩ := h.RequestProcessed he index maxCost realCost now
    exact ⟨s', by rw [Server.step, hpr]; rfl, h'⟩
  | updateParams n params now => exact h.UpdateParams he.1 he.2 now
  | setRechargeCurve curve now =>
    obtain ⟨cm', hsc, hcm', hsame⟩ := h.cm.SetRechargeCurve curve now
    exact ⟨_, by rw [Server.step, hsc]; rfl, h.withCm hcm' hsame⟩

/-- A run of enabled calls does not panic; by induction on the run, one call at a time. -/
theorem Inv.run (h : s.Inv) {calls : List (Call ι)} (he : s.EnabledAlong calls) :
    ∃ s', s.run calls = some s' ∧ s'.Inv := by
  rw [Server.run, Run.foldlM_eq_run]
  exact Run.run_progress Inv (fun _ _ h he => h.step he) h he

/-- A new manager, with no client nodes yet. -/
theorem inv_newServer {curve : Option PieceWiseLinear} {now : Int64} {cm : ClientManager ι}
    (hnew : ClientManager.newClientManager curve now = some cm) :
    (⟨cm, fun _ => none⟩ : Server ι).Inv :=
  ⟨ClientManager.Inv.of_newClientManager hnew,
    fun n => ⟨fun _ => ClientManager.nodes_of_newClientManager hnew n, fun _ => rfl⟩,
    fun _ _ hc => (Option.some_ne_none _ hc.symm).elim⟩

/-! ### What every run keeps -/

/-- From a new manager with no client nodes, a run of calls the server may make goes through
without a panic, and the server keeps its bookkeeping. -/
theorem run_newServer {curve : Option PieceWiseLinear} {now : Int64} {cm : ClientManager ι}
    (hnew : ClientManager.newClientManager curve now = some cm) {calls : List (Call ι)}
    (he : (⟨cm, fun _ => none⟩ : Server ι).EnabledAlong calls) :
    ∃ s', (⟨cm, fun _ => none⟩ : Server ι).run calls = some s' ∧ s'.Inv :=
  (inv_newServer hnew).run he

/-- A client node made on a new manager, and a request of it accepted. -/
theorem run_newServer_accept :
    ∃ cm : ClientManager ℕ, ClientManager.newClientManager none 0 = some cm ∧
      ∃ s', (⟨cm, fun _ => none⟩ : Server ℕ).run
        [.newClientNode 0 ⟨10, 1⟩ 0, .acceptRequest 0 0 4 1] = some s' ∧ s'.Inv :=
  ⟨_, rfl, run_newServer (show ClientManager.newClientManager none 0 = some _ from rfl)
    ⟨⟨rfl, rfl, by decide⟩, fun s₁ hstep => ⟨by
      cases hstep
      exact Option.some_ne_none _, fun _ _ => trivial⟩⟩⟩

/-- `BufferStatus` does not panic, and never reports a buffer value above the limit it reports
with it. -/
theorem BufferStatus_le (h : s.Inv) {n : ι} (hn : s.clients n ≠ none) (now : Int64) :
    ∃ s' bv lim, s.BufferStatus n now = some (s', bv, lim) ∧ bv ≤ lim ∧ s'.Inv := by
  obtain ⟨c, hc⟩ := Option.ne_none_iff_exists'.mp hn
  cases hconn : c.connected with
  | false =>
    refine ⟨s, 0, 0, ?_, UInt64.le_refl 0, h⟩
    rw [Server.BufferStatus, hc, Option.bind_eq_bind, Option.bind_some, hconn]
    rfl
  | true =>
    obtain ⟨s', node, hbs, h', hle⟩ := h.BufferStatus_connected hc hconn now
    refine ⟨s', _, _, hbs, ?_, h'⟩
    split_ifs with hneg
    · exact UInt64.zero_le
    · exact toUInt64_le_of_le_toInt64 (Int64.not_lt.mp hneg) hle

theorem BufferStatus_le_newClientNode :
    ∃ s : Server ℕ, s.Inv ∧ s.clients 0 ≠ none ∧
      ∃ s' bv lim, s.BufferStatus 0 5 = some (s', bv, lim) ∧ bv ≤ lim ∧ s'.Inv := by
  obtain ⟨s, hs, h⟩ := (inv_newServer (show ClientManager.newClientManager none 0 = some _ from
    rfl)).NewClientNode (n := 0) rfl (show (⟨10, 1⟩ : ServerParams).minRecharge ≠ 0 by decide) 0
  have hn : s.clients 0 ≠ none := by
    cases hs
    simp
  exact ⟨s, h, hn, BufferStatus_le h hn 5⟩

end Server

end Recharge

end Classzz.Flowcontrol
