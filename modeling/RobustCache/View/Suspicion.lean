import RobustCache.Lib.Trace
import RobustCache.View.Detector

/-! # Whom the failure detector suspects

The history of a run has the times at which the view service hears of a server and
those at which it looks for expired ones. A server leaves the view only after a check
that found its last sign of life too old; and whoever is a member, when nothing is under
way, was heard of in time for every check, or after it. No clock is assumed to be
right, or to go forward.
-/

namespace RobustCache

open Lib

namespace Registry

/-- What the view service learns of the servers. -/
inductive Sign where
  /-- `pings[s]` is set, or would be if there were an entry. -/
  | heard (s : Server) (now : Int)
  /-- The expired servers are collected. -/
  | checked (now : Int)
deriving DecidableEq

/-- A replica is heard of only if its master is a member. -/
def sign (r : Registry) : Part → Option Sign
  | .addPing s now => some (.heard s now)
  | .addView _ _ => none
  | .addReplica s master now => if master ∈ r.vs.servers then some (.heard s now) else none
  | .receivePing s now => some (.heard s now)
  | .findExpired now => some (.checked now)
  | .removeExpired => none

def lastHeard (s : Server) (log : List Sign) : Option Int :=
  log.foldl (fun last e =>
    match e with
    | .heard t now => if t = s then some now else last
    | .checked _ => last) none

theorem lastHeard_append (s : Server) (log : List Sign) (e : Sign) :
    lastHeard s (log ++ [e]) =
      match e with
      | .heard t now => if t = s then some now else lastHeard s log
      | .checked _ => lastHeard s log := by
  unfold lastHeard
  rw [List.foldl_append]
  rfl

/-- The last check found the last sign of `s` too old. -/
def Silent (s : Server) (log : List Sign) : Prop :=
  ∃ before now after last, log = before ++ .checked now :: after ∧
    (∀ now', .checked now' ∉ after) ∧ lastHeard s before = some last ∧ last < now - deadTime

/-- `s` was heard of in time for the check, or after it. -/
def Vouched (s : Server) (before : List Sign) (now : Int) (after : List Sign) : Prop :=
  (∃ last, lastHeard s before = some last ∧ now - deadTime ≤ last) ∨
    ∃ later, .heard s later ∈ after

structure Stamped (r : Registry) (log : List Sign) : Prop where
  wellFormed : r.vs.WellFormed
  /-- An entry is the time of the last sign. -/
  entry : ∀ s last, r.vs.pings.find? s = some last → lastHeard s log = some last
  collected : ∀ s ∈ r.vs.toRemove, Silent s log
  vouched : ∀ before now after, log = before ++ .checked now :: after →
    ∀ s ∈ r.vs.pings.keys, Vouched s before now after

/-! ## What one section keeps -/

theorem Silent.heard {s : Server} {log : List Sign} (h : Silent s log) (t : Server) (now : Int) :
    Silent s (log ++ [.heard t now]) := by
  obtain ⟨before, checked, after, last, rfl, hlast, hheard, hold⟩ := h
  refine ⟨before, checked, after ++ [.heard t now], last, by simp, ?_, hheard, hold⟩
  intro now' hmem
  rcases List.mem_append.mp hmem with hmem | hmem
  · exact hlast now' hmem
  · cases List.mem_singleton.mp hmem

theorem Vouched.heard {s : Server} {before after : List Sign} {now : Int}
    (h : Vouched s before now after) (t : Server) (later : Int) :
    Vouched s before now (after ++ [.heard t later]) := by
  rcases h with hold | ⟨since, hmem⟩
  · exact .inl hold
  · exact .inr ⟨since, List.mem_append_left _ hmem⟩

theorem split_heard {log before after : List Sign} {t : Server} {later now : Int}
    (h : log ++ [.heard t later] = before ++ .checked now :: after) :
    ∃ front, after = front ++ [.heard t later] ∧ log = before ++ .checked now :: front := by
  rcases List.eq_nil_or_concat after with rfl | ⟨front, e, rfl⟩
  · obtain ⟨-, hlast⟩ := List.append_inj' h rfl
    cases hlast
  · rw [List.concat_eq_append, ← List.cons_append, ← List.append_assoc] at h
    obtain ⟨hlog, hlast⟩ := List.append_inj' h rfl
    cases hlast
    exact ⟨front, List.concat_eq_append, hlog⟩

theorem Stamped.insert {r : Registry} {log : List Sign} (h : Stamped r log) (t : Server)
    (now : Int) {r' : Registry} (hwf : r'.vs.WellFormed)
    (hpings : r'.vs.pings = r.vs.pings.insert t now) (hremove : r'.vs.toRemove = r.vs.toRemove) :
    Stamped r' (log ++ [.heard t now]) := by
  constructor
  · exact hwf
  · intro s last hs
    rw [hpings, OrderedMap.find?_insert] at hs
    rw [lastHeard_append]
    by_cases hst : s = t
    · subst hst
      rw [if_pos rfl] at hs
      rw [← hs]
      exact if_pos rfl
    · rw [if_neg hst] at hs
      rw [← h.entry s last hs]
      exact if_neg fun he => hst he.symm
  · intro s hs
    rw [hremove] at hs
    exact (h.collected s hs).heard t now
  · intro before checked after hsplit s hs
    obtain ⟨front, rfl, hlog⟩ := split_heard hsplit
    rw [hpings] at hs
    rcases OrderedMap.mem_keys_insert.mp hs with rfl | hold
    · exact .inr ⟨now, List.mem_append_right _ (List.mem_singleton.mpr rfl)⟩
    · exact (h.vouched before checked front hlog s hold).heard t now

theorem Stamped.ignore {r : Registry} {log : List Sign} (h : Stamped r log) {t : Server}
    (ht : t ∉ r.vs.pings.keys) (now : Int) : Stamped r (log ++ [.heard t now]) := by
  constructor
  · exact h.wellFormed
  · intro s last hs
    rw [lastHeard_append, ← h.entry s last hs]
    apply if_neg
    rintro rfl
    exact ht (OrderedMap.mem_keys.mpr ⟨last, hs⟩)
  · intro s hs
    exact (h.collected s hs).heard t now
  · intro before checked after hsplit s hs
    obtain ⟨front, rfl, hlog⟩ := split_heard hsplit
    exact (h.vouched before checked front hlog s hs).heard t now

/-- The entries that a check keeps are recent, those that it collects are not. -/
theorem Stamped.check {r : Registry} {log : List Sign} (h : Stamped r log) (now : Int)
    {r' : Registry} (hwf : r'.vs.WellFormed)
    (hpings : r'.vs.pings = r.vs.pings.filter fun _ last => ¬ last < now - deadTime)
    (hremove : r'.vs.toRemove = (r.vs.pings.filter fun _ last => last < now - deadTime).keys) :
    Stamped r' (log ++ [.checked now]) := by
  have hkept : ∀ s last, r'.vs.pings.find? s = some last →
      r.vs.pings.find? s = some last ∧ now - deadTime ≤ last := by
    intro s last hs
    rw [hpings, OrderedMap.find?_filter, Option.filter_eq_some_iff] at hs
    exact ⟨hs.1, by simpa using hs.2⟩
  constructor
  · exact hwf
  · intro s last hs
    rw [lastHeard_append]
    exact h.entry s last (hkept s last hs).1
  · intro s hs
    rw [hremove, OrderedMap.mem_keys] at hs
    obtain ⟨last, hs⟩ := hs
    rw [OrderedMap.find?_filter, Option.filter_eq_some_iff] at hs
    have hold := h.entry s last hs.1
    exact ⟨log, now, [], last, rfl, fun _ => List.not_mem_nil, hold, of_decide_eq_true hs.2⟩
  · intro before checked after hsplit s hs
    obtain ⟨last, hs⟩ := OrderedMap.mem_keys.mp hs
    obtain ⟨hold, hrecent⟩ := hkept s last hs
    rcases List.eq_nil_or_concat after with rfl | ⟨front, e, rfl⟩
    · -- the check of this section
      obtain ⟨rfl, hlast⟩ := List.append_inj' hsplit rfl
      cases hlast
      exact .inl ⟨last, h.entry s last hold, hrecent⟩
    · rw [List.concat_eq_append, ← List.cons_append, ← List.append_assoc] at hsplit
      obtain ⟨hlog, -⟩ := List.append_inj' hsplit rfl
      have hmem : s ∈ r.vs.pings.keys := OrderedMap.mem_keys.mpr ⟨last, hold⟩
      rcases h.vouched before checked front hlog s hmem with hin | ⟨later, hheard⟩
      · exact .inl hin
      · rw [List.concat_eq_append]
        exact .inr ⟨later, List.mem_append_left _ hheard⟩

theorem Stamped.still {r : Registry} {log : List Sign} (h : Stamped r log) {r' : Registry}
    (hwf : r'.vs.WellFormed) (hpings : r'.vs.pings = r.vs.pings)
    (hremove : r'.vs.toRemove ⊆ r.vs.toRemove) : Stamped r' log := by
  constructor
  · exact hwf
  · intro s last hs
    rw [hpings] at hs
    exact h.entry s last hs
  · intro s hs
    exact h.collected s (hremove hs)
  · intro before now after hsplit s hs
    rw [hpings] at hs
    exact h.vouched before now after hsplit s hs

theorem step_stamped {r r' : Registry} {p : Part} {log : List Sign} (h : Stamped r log)
    (hstep : r.step p = some r') : Stamped r' (log ++ (r.sign p).toList) := by
  have hwf := h.wellFormed
  cases p with
  | addPing s now =>
      cases hstep
      exact h.insert s now hwf rfl rfl
  | addView s point =>
      simp only [step] at hstep
      split at hstep
      · cases hstep
        rw [show (r.sign (.addView s point)).toList = [] from rfl, List.append_nil]
        exact h.still (ViewService.wellFormed_publish hwf _ _) rfl (List.Subset.refl _)
      · cases hstep
  | addReplica s master now =>
      cases hstep
      by_cases hmaster : master ∈ r.vs.servers
      · have hsign : (r.sign (.addReplica s master now)).toList = [.heard s now] := by
          simp [sign, hmaster]
        have hadd : r.vs.addReplica s master now = _ := if_pos hmaster
        rw [hsign]
        refine h.insert s now ?_ ?_ ?_
        · rw [hadd]
          exact ViewService.wellFormed_publish hwf _ _
        · rw [hadd]
        · rw [hadd]
          rfl
      · have hsign : (r.sign (.addReplica s master now)).toList = [] := by simp [sign, hmaster]
        have hadd : r.vs.addReplica s master now = r.vs := if_neg hmaster
        rw [hsign, List.append_nil, hadd]
        exact h
  | receivePing s now =>
      cases hstep
      by_cases hs : s ∈ r.vs.pings.keys
      · refine h.insert s now hwf ?_ rfl
        exact if_pos (OrderedMap.contains_iff.mpr hs)
      · have hsame : (if r.vs.pings.contains s then r.vs.pings.insert s now
            else r.vs.pings) = r.vs.pings :=
          if_neg fun hc => hs (OrderedMap.contains_iff.mp hc)
        rw [hsame]
        exact h.ignore hs now
  | findExpired now =>
      simp only [step] at hstep
      split at hstep
      · cases hstep
        exact h.check now hwf rfl rfl
      · cases hstep
  | removeExpired =>
      simp only [step] at hstep
      split at hstep
      · cases hstep
      · cases hstep
        rw [show (r.sign .removeExpired).toList = [] from rfl, List.append_nil]
        exact h.still (ViewService.wellFormed_publish hwf _ _) rfl (List.nil_subset _)

theorem initial_stamped : Stamped {} [] := by
  constructor
  · exact ⟨rfl, rfl⟩
  · intro s last hs
    cases hs
  · intro s hs
    cases hs
  · intro before now after hsplit
    simp at hsplit

/-- Only the second section of `checkPings` takes a server out of the view. -/
theorem removed_cases {r r' : Registry} {p : Part} (hwf : r.vs.WellFormed)
    (hstep : r.step p = some r') {s : Server} (hs : s ∈ r.vs.servers) (hgone : s ∉ r'.vs.servers) :
    s ∈ r.vs.toRemove := by
  have hadded : ∀ t ring, s ∈ (r.vs.publish (r.vs.servers ++ [t]) ring).servers := by
    intro t ring
    rw [ViewService.servers_publish hwf]
    exact List.mem_append_left _ hs
  cases p with
  | addPing t now =>
      cases hstep
      exact absurd hs hgone
  | addView t point =>
      simp only [step] at hstep
      split at hstep
      · cases hstep
        exact absurd (hadded t _) hgone
      · cases hstep
  | addReplica t master now =>
      cases hstep
      by_cases hmaster : master ∈ r.vs.servers
      · rw [show r.vs.addReplica t master now = _ from if_pos hmaster] at hgone
        exact absurd (hadded t (ViewService.joinGroup r.vs.ring t master)) hgone
      · rw [show r.vs.addReplica t master now = r.vs from if_neg hmaster] at hgone
        exact absurd hs hgone
  | receivePing t now =>
      cases hstep
      exact absurd hs hgone
  | findExpired now =>
      simp only [step] at hstep
      split at hstep
      · cases hstep
        exact absurd hs hgone
      · cases hstep
  | removeExpired =>
      simp only [step] at hstep
      split at hstep
      · cases hstep
      · cases hstep
        by_contra hstay
        apply hgone
        show s ∈ (r.vs.removeServers r.vs.toRemove).servers
        rw [ViewService.removeServers, ViewService.servers_publish hwf, List.mem_filter]
        exact ⟨hs, by simpa using hstay⟩

/-! ## Runs -/

/-- In every run, a server that leaves the view had given no sign of life for more than
`DEAD_TIME` at the last check; so one that pings often enough stays. -/
theorem removed_was_silent {r r' : Registry} {p : Part} {log : List Sign}
    (h : Trace step anyAction sign {} r log) (hstep : r.step p = some r') {s : Server}
    (hs : s ∈ r.vs.servers) (hgone : s ∉ r'.vs.servers) : Silent s log := by
  have hstamped : Stamped r log :=
    h.invariant initial_stamped fun _ _ _ _ hst _ hstep => step_stamped hst hstep
  exact hstamped.collected s (removed_cases hstamped.wellFormed hstep hs hgone)

theorem removed_was_silent_expired :
    ∃ r r' log, Trace step anyAction sign {} r log ∧ r.step .removeExpired = some r' ∧
      ⟨[2], 2⟩ ∈ r.vs.servers ∧ ⟨[2], 2⟩ ∉ r'.vs.servers ∧ Silent ⟨[2], 2⟩ log := by
  have hrun : ((record step anyAction sign {}
      ((orderlyParts ⟨[1], 1⟩ ⟨[2], 2⟩ ⟨[3], 3⟩).dropLast)).bind fun before =>
        (before.1.step .removeExpired).map fun r' =>
          (before.1.vs.servers, r'.vs.servers)) =
      some ([⟨[2], 2⟩, ⟨[1], 1⟩, ⟨[3], 3⟩], [⟨[1], 1⟩, ⟨[3], 3⟩]) := by
    decide +kernel
  obtain ⟨⟨r, log⟩, hrec, hrest⟩ := Option.bind_eq_some_iff.mp hrun
  obtain ⟨r', hstep, hend⟩ := Option.map_eq_some_iff.mp hrest
  obtain ⟨hservers, hservers'⟩ := Prod.mk.inj hend
  have hs : ⟨[2], 2⟩ ∈ r.vs.servers := by
    rw [show r.vs.servers = _ from hservers]
    decide
  have hgone : ⟨[2], 2⟩ ∉ r'.vs.servers := by
    rw [hservers']
    decide
  have htrace := trace_of_record hrec
  exact ⟨r, r', log, htrace, hstep, hs, hgone, removed_was_silent htrace hstep hs hgone⟩

/-- In every run of orderly sections, whenever no operation is under way each member of
the current view was heard of at most `DEAD_TIME` before each check there has been, or
after it. -/
theorem members_were_heard {r : Registry} {log before after : List Sign} {now : Int}
    (h : Trace step (fun r p => r.orderly p = true) sign {} r log) (hquiet : r.Quiet)
    (hsplit : log = before ++ .checked now :: after) {s : Server} (hs : s ∈ r.vs.servers) :
    Vouched s before now after := by
  have hinv : Tracks r ∧ Stamped r log := by
    apply h.invariant (P := fun r log => Tracks r ∧ Stamped r log)
    · exact ⟨initial_tracks, initial_stamped⟩
    · intro r p r' log hr horder hstep
      exact ⟨step_tracks hr.1 horder hstep, step_stamped hr.2 hstep⟩
  obtain ⟨htracks, hstamped⟩ := hinv
  have hwatched := htracks.watched s hs
  rw [hquiet.2] at hwatched
  exact hstamped.vouched before now after hsplit s (hwatched.resolve_right List.not_mem_nil)

theorem members_were_heard_joined :
    ∃ r before after, Trace step (fun r p => r.orderly p = true) sign {} r
        (before ++ .checked 1500 :: after) ∧ r.Quiet ∧ ⟨[1], 1⟩ ∈ r.vs.servers ∧
      Vouched ⟨[1], 1⟩ before 1500 after := by
  have hrun : ((record step (fun r p => r.orderly p = true) sign {}
      (orderlyParts ⟨[1], 1⟩ ⟨[2], 2⟩ ⟨[3], 3⟩)).map fun end' =>
        (decide end'.1.Quiet, end'.1.vs.servers, end'.2)) =
      some (true, [⟨[1], 1⟩, ⟨[3], 3⟩],
        [.heard ⟨[1], 1⟩ 0, .heard ⟨[2], 2⟩ 0, .heard ⟨[3], 3⟩ 600, .heard ⟨[1], 1⟩ 700] ++
          .checked 1500 :: [.heard ⟨[3], 3⟩ 1500]) := by
    decide +kernel
  obtain ⟨⟨r, log⟩, hrec, hend⟩ := Option.map_eq_some_iff.mp hrun
  obtain ⟨hquiet, hend⟩ := Prod.mk.inj hend
  obtain ⟨hservers, hlog⟩ := Prod.mk.inj hend
  have hs : ⟨[1], 1⟩ ∈ r.vs.servers := by
    rw [show r.vs.servers = _ from hservers]
    decide
  have htrace := trace_of_record hrec
  have hvouched := members_were_heard htrace (of_decide_eq_true hquiet) hlog hs
  rw [show log = _ from hlog] at htrace
  exact ⟨r, _, _, htrace, of_decide_eq_true hquiet, hs, hvouched⟩

end Registry

end RobustCache
