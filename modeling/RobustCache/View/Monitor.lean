import RobustCache.Cluster.Statistics

/-! # What the monitor shows

`getStatistics` of the view service calls the servers of its view one after the other
and adds up what they answer, while they go on serving; a server that cannot be
reached is left out. The monitor prints how many more operations there are than the
last time it asked.
-/

namespace RobustCache

open Lib

/-- The reply to `getStatistics`: the counters of the handler with the two sizes that
are filled in when it is asked for. -/
structure StatisticsReply extends GetStatisticsReply where
  dataSize : Int := 0
  memoryOverhead : Int := 0
deriving DecidableEq

/-- `KVStorageHandler::getStatistics`; `recordSize` is `sizeof(Record)`. -/
def Handler.getStatistics (recordSize : Nat) (h : Handler) : StatisticsReply :=
  { h.statistics with
    dataSize := h.getUsedMemory
    memoryOverhead := recordSize * h.hashTable.size }

def aggregateStatistics (a b : StatisticsReply) : StatisticsReply where
  numInsertions := a.numInsertions + b.numInsertions
  numUpdates := a.numUpdates + b.numUpdates
  numGoodGets := a.numGoodGets + b.numGoodGets
  numFailedGets := a.numFailedGets + b.numFailedGets
  dataSize := a.dataSize + b.dataSize
  memoryOverhead := a.memoryOverhead + b.memoryOverhead
  numEvictions := a.numEvictions + b.numEvictions
  numPurges := a.numPurges + b.numPurges

/-- `getOps` of the monitor. -/
def getOps (s : GetStatisticsReply) : Int :=
  s.numInsertions + s.numUpdates + s.numGoodGets + s.numFailedGets

theorem getOps_aggregateStatistics (a b : StatisticsReply) :
    getOps (aggregateStatistics a b).toGetStatisticsReply =
      getOps a.toGetStatisticsReply + getOps b.toGetStatisticsReply := by
  simp only [getOps, aggregateStatistics]
  ring

/-! ## A call of `getStatistics` at the view service -/

/-- Where the loop over the view is, and what it has added up. -/
structure Gathering where
  cluster : Cluster
  view : List Server
  result : StatisticsReply := {}

inductive GatherEvent where
  /-- The servers and their clients go on. -/
  | act (a : Action)
  /-- The next server answers. -/
  | answered
  /-- The call of the next server ends in an exception. -/
  | failed

namespace Gathering

def step (recordSize : Nat) (g : Gathering) : GatherEvent → Option Gathering
  | .act a => (g.cluster.step a).map fun cluster => { g with cluster }
  | .answered =>
      match g.view with
      | s :: rest =>
          -- the handler thread serves one call at a time
          if (g.cluster.tasks s).isSome then none
          else some { g with
            view := rest
            result := aggregateStatistics g.result
              ((g.cluster.handlers s).getStatistics recordSize) }
      | [] => none
  | .failed =>
      match g.view with
      | _ :: rest => some { g with view := rest }
      | [] => none

def heardFrom (g : Gathering) : GatherEvent → Option Server
  | .answered => g.view.head?
  | _ => none

end Gathering

namespace Cluster

/-- The operations that the statistics of some servers count together. -/
def opsOf (c : Cluster) (servers : List Server) : Int :=
  (servers.map fun s => getOps (c.handlers s).statistics).sum

def OpsGrow (c c' : Cluster) : Prop :=
  ∀ s, getOps (c.handlers s).statistics ≤ getOps (c'.handlers s).statistics

theorem getOps_eq_books (h : Handler) :
    getOps h.statistics = h.books.puts + h.books.goodGets + h.books.failedGets := rfl

theorem opsGrow_of_step {c c' : Cluster} {a : Action} (h : c.step a = some c') (hs : Sound c) :
    OpsGrow c c' := by
  intro s
  obtain ⟨hputs, hgood, hfailed⟩ := step_records h hs s
  rw [getOps_eq_books, getOps_eq_books, hputs, hgood, hfailed]
  omega

theorem OpsGrow.refl (c : Cluster) : OpsGrow c c := fun _ => le_refl _

theorem OpsGrow.trans {c c' c'' : Cluster} (h : OpsGrow c c') (h' : OpsGrow c' c'') :
    OpsGrow c c'' :=
  fun s => (h s).trans (h' s)

theorem OpsGrow.opsOf_le {c c' : Cluster} (h : OpsGrow c c') (servers : List Server) :
    c.opsOf servers ≤ c'.opsOf servers := by
  unfold opsOf
  exact List.sum_le_sum fun s _ => h s

theorem opsOf_append (c : Cluster) (servers servers' : List Server) :
    c.opsOf (servers ++ servers') = c.opsOf servers + c.opsOf servers' := by
  unfold opsOf
  rw [List.map_append, List.sum_append]

theorem opsGrow_of_reach {c c' : Cluster} (hs : Sound c) (h : Reach step anyAction c c') :
    Sound c' ∧ OpsGrow c c' := by
  apply h.invariant (P := fun c' => Sound c' ∧ OpsGrow c c')
  · exact ⟨hs, .refl c⟩
  · intro c₁ a c₂ hinv _ hstep
    exact ⟨(step_moves hstep).sound hinv.1, hinv.2.trans (opsGrow_of_step hstep hinv.1)⟩

end Cluster

namespace Gathering

variable {recordSize : Nat}

/-- What has been added up so far lies between what the servers heard from counted
when the call began and what they count now. -/
structure Between (c : Cluster) (g : Gathering) (heard : List Server) : Prop where
  sound : g.cluster.Sound
  grow : c.OpsGrow g.cluster
  lower : c.opsOf heard ≤ getOps g.result.toGetStatisticsReply
  upper : getOps g.result.toGetStatisticsReply ≤ g.cluster.opsOf heard

theorem Between.act {c : Cluster} {heard : List Server} {g : Gathering} (h : Between c g heard)
    {a : Action} {cluster : Cluster} (hstep : g.cluster.step a = some cluster) :
    Between c { g with cluster } heard := by
  have hgrow := Cluster.opsGrow_of_step hstep h.sound
  exact ⟨(Cluster.step_moves hstep).sound h.sound, h.grow.trans hgrow, h.lower,
    h.upper.trans (hgrow.opsOf_le heard)⟩

theorem Between.answered {c : Cluster} {heard rest : List Server} {g : Gathering}
    (h : Between c g heard) (s : Server) :
    Between c { g with
      view := rest
      result := aggregateStatistics g.result
        ((g.cluster.handlers s).getStatistics recordSize) } (heard ++ [s]) := by
  obtain ⟨hsound, hgrow, hlower, hupper⟩ := h
  have hone : ∀ c : Cluster, c.opsOf [s] = getOps (c.handlers s).statistics := fun c => by
    simp [Cluster.opsOf]
  have hadded : getOps ((g.cluster.handlers s).getStatistics recordSize).toGetStatisticsReply =
      getOps (g.cluster.handlers s).statistics := rfl
  refine ⟨hsound, hgrow, ?_, ?_⟩
  · rw [Cluster.opsOf_append, hone, getOps_aggregateStatistics, hadded]
    exact add_le_add hlower (hgrow s)
  · rw [Cluster.opsOf_append, hone, getOps_aggregateStatistics, hadded]
    exact add_le_add hupper (le_refl _)

theorem step_between {c : Cluster} {heard : List Server} {g g' : Gathering} {e : GatherEvent}
    (h : Between c g heard) (hstep : g.step recordSize e = some g') :
    Between c g' (heard ++ (g.heardFrom e).toList) := by
  cases e with
  | act a =>
      obtain ⟨cluster, hcluster, rfl⟩ := Option.map_eq_some_iff.mp hstep
      have hnone : heard ++ (g.heardFrom (.act a)).toList = heard := List.append_nil heard
      rw [hnone]
      exact h.act hcluster
  | answered =>
      simp only [step] at hstep
      split at hstep
      · next s rest hview =>
        split at hstep
        · cases hstep
        · cases hstep
          have hheard : (g.heardFrom .answered).toList = [s] := by simp [heardFrom, hview]
          rw [hheard]
          exact h.answered s
      · cases hstep
  | failed =>
      simp only [step] at hstep
      split at hstep
      · next s rest hview =>
        cases hstep
        have hnone : heard ++ (g.heardFrom .failed).toList = heard := List.append_nil heard
        rw [hnone]
        exact ⟨h.sound, h.grow, h.lower, h.upper⟩
      · cases hstep

theorem trace_between {c : Cluster} (hs : c.Sound) {view heard : List Server} {g : Gathering}
    (h : Trace (step recordSize) anyAction heardFrom { cluster := c, view } g heard) :
    Between c g heard := by
  apply h.invariant
  · have hnone : c.opsOf [] = 0 := rfl
    exact ⟨hs, .refl c, le_of_eq hnone, le_of_eq hnone.symm⟩
  · intro g e g' heard hbetween _ hstep
    exact step_between hbetween hstep

end Gathering

/-- The number of operations that the monitor prints, after two calls of
`getStatistics` that the same servers have answered. It is at least what these servers
have counted from the end of the first call to the start of the second one, and at most
what they have counted from the start of the first to the end of the second; so it is
never negative. -/
theorem monitor_ops_between {recordSize : Nat} {c c₁ : Cluster}
    (hc : Reach Cluster.step anyAction Cluster.initial c) {view view₁ heard : List Server}
    {last statistics : Gathering}
    (hlast : Trace (Gathering.step recordSize) anyAction Gathering.heardFrom
      { cluster := c, view } last heard)
    (hsleep : Reach Cluster.step anyAction last.cluster c₁)
    (hnow : Trace (Gathering.step recordSize) anyAction Gathering.heardFrom
      { cluster := c₁, view := view₁ } statistics heard) :
    let ops := getOps statistics.result.toGetStatisticsReply -
      getOps last.result.toGetStatisticsReply
    0 ≤ ops ∧ c₁.opsOf heard - last.cluster.opsOf heard ≤ ops ∧
      ops ≤ statistics.cluster.opsOf heard - c.opsOf heard := by
  have hsound : c.Sound := (Cluster.opsGrow_of_reach Cluster.initial_sound hc).1
  have hfirst := Gathering.trace_between hsound hlast
  obtain ⟨hsound₁, hgrow⟩ := Cluster.opsGrow_of_reach hfirst.sound hsleep
  have hsecond := Gathering.trace_between hsound₁ hnow
  have hbetween := hgrow.opsOf_le heard
  have hlower := hsecond.lower
  have hupper := hfirst.upper
  have hlower' := hfirst.lower
  have hupper' := hsecond.upper
  intro ops
  refine ⟨?_, ?_, ?_⟩
  · omega
  · omega
  · omega

/-- Both servers answer; between the two calls the first one serves a put, and the
second one a get while the second call is under way. -/
theorem monitor_ops_between_readWhileAsked :
    ∃ (c₁ : Cluster) (last statistics : Gathering),
      Reach Cluster.step anyAction last.cluster c₁ ∧
      Trace (Gathering.step 80) anyAction Gathering.heardFrom
        { cluster := c₁, view := [⟨[1], 1⟩, ⟨[2], 2⟩] } statistics [⟨[1], 1⟩, ⟨[2], 2⟩] ∧
      statistics.view = [] ∧
      c₁.opsOf [⟨[1], 1⟩, ⟨[2], 2⟩] - last.cluster.opsOf [⟨[1], 1⟩, ⟨[2], 2⟩] = 1 ∧
      1 ≤ getOps statistics.result.toGetStatisticsReply -
        getOps last.result.toGetStatisticsReply := by
  let servers : List Server := [⟨[1], 1⟩, ⟨[2], 2⟩]
  let group : GetServersReply := { view := View.single servers, viewNum := 2 }
  have hrun : ((record (Gathering.step 80) anyAction Gathering.heardFrom
      { cluster := Cluster.initial, view := servers } [.answered, .answered]).bind fun last =>
        (perform Cluster.step anyAction last.1.cluster
          (Cluster.refreshedCall ⟨[1], 1⟩ (.put ⟨[1], [7], 2⟩) group)).bind fun c₁ =>
            (record (Gathering.step 80) anyAction Gathering.heardFrom
              { cluster := c₁, view := servers }
              (.answered :: ((Cluster.refreshedCall ⟨[2], 2⟩ (.get ⟨[1], 2⟩) group).map .act ++
                [.answered]))).map fun now =>
              (last.2, now.2, now.1.view,
                c₁.opsOf servers - last.1.cluster.opsOf servers)) =
      some (servers, servers, [], 1) := by
    decide +kernel
  obtain ⟨⟨last, heard⟩, hlast, hrest⟩ := Option.bind_eq_some_iff.mp hrun
  obtain ⟨c₁, hsleep, hrest⟩ := Option.bind_eq_some_iff.mp hrest
  obtain ⟨⟨now, heard₁⟩, hnow, hend⟩ := Option.map_eq_some_iff.mp hrest
  obtain ⟨hheard, hend⟩ := Prod.mk.inj hend
  obtain ⟨hheard₁, hend⟩ := Prod.mk.inj hend
  obtain ⟨hview, hops⟩ := Prod.mk.inj hend
  have hfirst := trace_of_record hlast
  have hsecond := trace_of_record hnow
  rw [show heard = servers from hheard] at hfirst
  rw [show heard₁ = servers from hheard₁] at hsecond
  have hcalls := monitor_ops_between .refl hfirst (reach_of_perform hsleep) hsecond
  refine ⟨c₁, last, now, reach_of_perform hsleep, hsecond, hview, hops, ?_⟩
  have hlower := hcalls.2.1
  rw [hops] at hlower
  exact hlower

end RobustCache
