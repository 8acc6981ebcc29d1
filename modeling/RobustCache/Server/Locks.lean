import RobustCache.Lib.Run
import RobustCache.Server.Refinement

/-! # The mutexes of a server

The handler's functions with `hashMutex` and `currentViewMutex` taken and
released by hand, as in the source. A ring lookup may throw in the middle; what
is held then stays held.
-/

namespace RobustCache

open Lib

/-- A server process: its state and which mutexes are held. -/
structure Process where
  handler : Handler
  hashMutex : Bool := false
  currentViewMutex : Bool := false

namespace Process

def Free (p : Process) : Prop := p.hashMutex = false ∧ p.currentViewMutex = false

instance (p : Process) : Decidable p.Free := inferInstanceAs (Decidable (_ ∧ _))

def Sound (p : Process) : Prop := ∃ items, Represents p.handler.toStore items

end Process

/-- How a call ends: with a result, with an `EmptyRingException`, or not at all
(on a held mutex, in an endless loop or by a failed assertion). -/
inductive Outcome (α : Type) where
  | returns (a : α) (p : Process)
  | throws (p : Process)
  | stuck

/-- The call has ended, one way or the other, with both mutexes released. -/
def Outcome.Released {α : Type} : Outcome α → Prop
  | .returns _ p => p.Free
  | .throws p => p.Free
  | .stuck => False

instance {α : Type} (o : Outcome α) : Decidable o.Released :=
  match o with
  | .returns _ p => inferInstanceAs (Decidable p.Free)
  | .throws p => inferInstanceAs (Decidable p.Free)
  | .stuck => inferInstanceAs (Decidable False)

/-- A function of the handler as a program over the process. -/
def Locked (α : Type) := Process → Outcome α

namespace Locked

variable {α β : Type}

instance : Monad Locked where
  pure a := fun p => .returns a p
  bind x f := fun p =>
    match x p with
    | .returns a p => f a p
    | .throws p => .throws p
    | .stuck => .stuck

def lockHash : Locked Unit := fun p =>
  if p.hashMutex then .stuck else .returns () { p with hashMutex := true }

def unlockHash : Locked Unit := fun p => .returns () { p with hashMutex := false }

def lockView : Locked Unit := fun p =>
  if p.currentViewMutex then .stuck else .returns () { p with currentViewMutex := true }

def unlockView : Locked Unit := fun p => .returns () { p with currentViewMutex := false }

def handler : Locked Handler := fun p => .returns p.handler p

/-- Run a section of the handler; its exception leaves the state before it. -/
def within (f : Handler → Except Fault (Handler × α)) : Locked α := fun p =>
  match f p.handler with
  | .ok (h, a) => .returns a { p with handler := h }
  | .error .emptyRing => .throws p
  | .error _ => .stuck

/-! ## The functions of the handler -/

/-- The loop throws, if at all, at the first lookup. -/
def cleanHash : Locked Unit := do
  lockHash
  within fun h => h.cleanHash.map fun h => (h, ())
  unlockHash

/-- `if (needToClean) cleanHash();`. -/
def cleanIf (needToClean : Bool) : Locked Unit :=
  if needToClean then cleanHash else pure ()

/-- Assign the current view; the result tells whether its number changed. -/
def assignView (view : GetServersReply) : Locked Bool := do
  lockView
  let h ← handler
  let needToClean := decide (h.currentView.viewNum ≠ view.viewNum)
  within fun h => .ok ({ h with currentView := view }, ())
  unlockView
  return needToClean

/-- What `checkServer` and the ping loop do with a view they have received. -/
def refresh (view : GetServersReply) : Locked Unit := do
  let needToClean ← assignView view
  cleanIf needToClean

def readView : Locked GetServersReply := do
  lockView
  let h ← handler
  unlockView
  return h.currentView

def checkServer (viewNum : Int) (key : Bytes) (pinged : GetServersReply) : Locked Bool := do
  let _currentView ← readView
  if viewNum < _currentView.viewNum then return false
  else if viewNum > _currentView.viewNum then
    refresh pinged
    if viewNum ≠ pinged.viewNum then return false
    else within fun h => (h.owns pinged.view key).map fun owned => (h, owned)
  else within fun h => (h.owns _currentView.view key).map fun owned => (h, owned)

/-- A view that the ping thread assigns in between, if any. -/
def arrive : Option GetServersReply → Locked Bool
  | some view => assignView view
  | none => pure false

/-- The locked section of `put`. -/
def putSection (query : PutArgs) : Locked PutReply := do
  lockHash
  within fun h => (h.putEntry query.key query.value).map fun h => (h, ())
  lockView
  let servers ← within fun h =>
    (getServer (irHash query.key) h.currentView.view).map fun servers => (h, servers)
  unlockView
  within fun h => .ok (h.noteDiffs query.key servers, ())
  unlockHash
  return { status := .ok }

/-- `put`, with a view change `change` between the check and the locked section. -/
def put (query : PutArgs) (pinged : GetServersReply) (change : Option GetServersReply) :
    Locked PutReply := do
  let ok ← checkServer query.viewNum query.key pinged
  let _ ← arrive change
  if ok then putSection query else return { status := .wrongServer }

def getSection (query : GetArgs) : Locked GetReply := do
  lockHash
  let reply ← within fun h => h.getLocked query
  unlockHash
  return reply

def get (query : GetArgs) (pinged : GetServersReply) : Locked GetReply := do
  let ok ← checkServer query.viewNum query.key pinged
  if ok then getSection query else return { status := .wrongServer }

def mergeSection (query : AntiEntropyArgs) : Locked AntiEntropyReply := do
  lockHash
  let reply ← within fun h => h.antiEntropyLocked query
  unlockHash
  return reply

def antiEntropy (query : AntiEntropyArgs) : Locked AntiEntropyReply := do
  let _currentView ← readView
  if _currentView.viewNum = query.viewNum then mergeSection query
  else return { status := .wrongServer }

/-- The view number of an exchange is read only if there is something to send. -/
def readViewIf (needed : Bool) : Locked Unit :=
  if needed then do let _ ← readView; return () else return ()

/-- The start of an exchange in the anti-entropy thread. -/
def beginExchange : Locked (Option (Server × AntiEntropyArgs)) := do
  lockHash
  let h ← handler
  readViewIf h.nextPeer.isSome
  let sent ← within fun h => h.snapshot.map fun sent => (h, sent)
  unlockHash
  return sent

/-- The end of an exchange in the anti-entropy thread. -/
def processReply (peer : Server) (reply : AntiEntropyReply) : Locked Unit := do
  lockHash
  within fun h => (h.replyLocked peer reply).map fun h => (h, ())
  unlockHash

end Locked

/-! ## Rules -/

/-- The state of every ending satisfies `I`. -/
def Outcome.All {α : Type} (I : Process → Prop) : Outcome α → Prop
  | .returns _ p => I p
  | .throws p => I p
  | .stuck => True

namespace Locked

variable {α β : Type} {I : Process → Prop}

/-- `I` holds after every ending if it held before. -/
def Keeps (I : Process → Prop) (x : Locked α) : Prop := ∀ p, I p → (x p).All I

theorem keeps_pure (a : α) : Keeps I (pure a : Locked α) := fun _ hp => hp

theorem Keeps.bind {x : Locked α} {f : α → Locked β} (hx : Keeps I x)
    (hf : ∀ a, Keeps I (f a)) : Keeps I (x >>= f) := by
  intro p hp
  have hend := hx p hp
  show (match x p with
    | .returns a p => f a p
    | .throws p => .throws p
    | .stuck => .stuck : Outcome β).All I
  cases hxp : x p with
  | returns a p' =>
      rw [hxp] at hend
      exact hf a p' hend
  | throws p' =>
      rw [hxp] at hend
      exact hend
  | stuck => trivial

theorem Keeps.ite {c : Prop} [Decidable c] {x y : Locked α} (hx : Keeps I x) (hy : Keeps I y) :
    Keeps I (if c then x else y) := by
  split
  · exact hx
  · exact hy

theorem keeps_within {f : Handler → Except Fault (Handler × α)}
    (hf : ∀ h items, Represents h.toStore items → ∀ h' a, f h = .ok (h', a) →
      ∃ items', Represents h'.toStore items') : Keeps Process.Sound (within f) := by
  intro p hp
  rcases hp with ⟨items, hr⟩
  unfold within
  cases hfp : f p.handler with
  | ok r =>
      rcases r with ⟨h', a⟩
      exact hf _ items hr h' a hfp
  | error e =>
      cases e with
      | emptyRing => exact ⟨items, hr⟩
      | assertion => trivial
      | diverges => trivial

/-- The program waits forever for a mutex in every state of `I`. -/
def Blocks (I : Process → Prop) (x : Locked α) : Prop := ∀ p, I p → x p = .stuck

theorem Blocks.bind {x : Locked α} (hx : Blocks I x) (f : α → Locked β) : Blocks I (x >>= f) := by
  intro p hp
  show (match x p with
    | .returns a p => f a p
    | .throws p => .throws p
    | .stuck => .stuck) = _
  rw [hx p hp]

theorem Blocks.keeps {x : Locked α} (hx : Blocks I x) : Keeps I x := by
  intro p hp
  rw [hx p hp]
  trivial

/-! ## A mutex that is held stays held -/

def HashHeld (p : Process) : Prop := p.hashMutex = true

def ViewHeld (p : Process) : Prop := p.currentViewMutex = true

theorem lockHash_blocks : Blocks HashHeld lockHash := fun _ hp => if_pos hp

theorem lockView_blocks : Blocks ViewHeld lockView := fun _ hp => if_pos hp

theorem within_keeps_held (f : Handler → Except Fault (Handler × α)) :
    Keeps HashHeld (within f) ∧ Keeps ViewHeld (within f) := by
  constructor
  all_goals
    intro p hp
    unfold within
    split
    · exact hp
    · exact hp
    · trivial

theorem lockHash_keeps {I : Process → Prop} (hI : ∀ p, I p → I { p with hashMutex := true }) :
    Keeps I lockHash := by
  intro p hp
  unfold lockHash
  split
  · trivial
  · exact hI p hp

theorem lockView_keeps {I : Process → Prop}
    (hI : ∀ p, I p → I { p with currentViewMutex := true }) : Keeps I lockView := by
  intro p hp
  unfold lockView
  split
  · trivial
  · exact hI p hp

theorem lockView_keeps_hash : Keeps HashHeld lockView := lockView_keeps fun _ hp => hp

theorem lockHash_keeps_view : Keeps ViewHeld lockHash := lockHash_keeps fun _ hp => hp

theorem readView_keeps_hash : Keeps HashHeld readView :=
  lockView_keeps_hash.bind fun _ => Keeps.bind (fun _ hp => hp) fun _ =>
    Keeps.bind (fun _ hp => hp) fun _ => keeps_pure _

theorem readView_blocks : Blocks ViewHeld readView := lockView_blocks.bind _

theorem cleanHash_keeps_view : Keeps ViewHeld cleanHash :=
  lockHash_keeps_view.bind fun _ => (within_keeps_held _).2.bind fun _ _ hp => hp

theorem assignView_keeps_hash (view : GetServersReply) : Keeps HashHeld (assignView view) :=
  lockView_keeps_hash.bind fun _ => Keeps.bind (fun _ hp => hp) fun _ =>
    (within_keeps_held _).1.bind fun _ => Keeps.bind (fun _ hp => hp) fun _ => keeps_pure _

theorem cleanHash_blocks : Blocks HashHeld cleanHash := lockHash_blocks.bind _

theorem checkServer_keeps_hash (viewNum : Int) (key : Bytes) (pinged : GetServersReply) :
    Keeps HashHeld (checkServer viewNum key pinged) := by
  refine readView_keeps_hash.bind fun _ => Keeps.ite (keeps_pure _) (Keeps.ite ?_ ?_)
  · refine Keeps.bind ?_ fun _ => Keeps.ite (keeps_pure _) (within_keeps_held _).1
    exact (assignView_keeps_hash pinged).bind fun _ =>
      Keeps.ite cleanHash_blocks.keeps (keeps_pure _)
  · exact (within_keeps_held _).1

theorem checkServer_blocks (viewNum : Int) (key : Bytes) (pinged : GetServersReply) :
    Blocks ViewHeld (checkServer viewNum key pinged) := readView_blocks.bind _

/-! ## The store stays well formed -/

theorem lockHash_keeps_sound : Keeps Process.Sound lockHash := lockHash_keeps fun _ hp => hp

theorem lockView_keeps_sound : Keeps Process.Sound lockView := lockView_keeps fun _ hp => hp

theorem readView_keeps_sound : Keeps Process.Sound readView :=
  lockView_keeps_sound.bind fun _ => Keeps.bind (fun _ hp => hp) fun _ =>
    Keeps.bind (fun _ hp => hp) fun _ => keeps_pure _

theorem hashSection_keeps_sound {f : Handler → Except Fault (Handler × α)} {g : α → β}
    (hf : ∀ h items, Represents h.toStore items → ∀ h' a, f h = .ok (h', a) →
      ∃ items', Represents h'.toStore items') :
    Keeps Process.Sound (do lockHash; let a ← within f; unlockHash; return g a) :=
  lockHash_keeps_sound.bind fun _ => (keeps_within hf).bind fun _ =>
    Keeps.bind (fun _ hp => hp) fun _ => keeps_pure _

theorem cleanHash_keeps_sound : Keeps Process.Sound cleanHash := by
  refine lockHash_keeps_sound.bind fun _ => (keeps_within ?_).bind fun _ _ hp => hp
  intro h items hr h' a hrun
  cases hclean : h.cleanHash with
  | error e =>
      rw [hclean] at hrun
      cases hrun
  | ok h₁ =>
      rw [hclean] at hrun
      cases hrun
      rcases Handler.cleanHash_represents hr hclean with ⟨items', hrep, -⟩
      exact ⟨items', hrep⟩

theorem assignView_keeps_sound (view : GetServersReply) :
    Keeps Process.Sound (assignView view) := by
  refine lockView_keeps_sound.bind fun _ => Keeps.bind (fun _ hp => hp) fun _ =>
    (keeps_within ?_).bind fun _ => Keeps.bind (fun _ hp => hp) fun _ => keeps_pure _
  intro h items hr h' a hrun
  cases hrun
  exact ⟨items, hr⟩

theorem owns_keeps_sound (v : View) (key : Bytes) :
    Keeps Process.Sound (within fun h => (h.owns v key).map fun owned => (h, owned)) := by
  apply keeps_within
  intro h items hr h' a hrun
  cases howns : h.owns v key with
  | error e =>
      rw [howns] at hrun
      cases hrun
  | ok owned =>
      rw [howns] at hrun
      cases hrun
      exact ⟨items, hr⟩

theorem checkServer_keeps_sound (viewNum : Int) (key : Bytes) (pinged : GetServersReply) :
    Keeps Process.Sound (checkServer viewNum key pinged) := by
  refine readView_keeps_sound.bind fun _ => Keeps.ite (keeps_pure _) (Keeps.ite ?_ ?_)
  · refine Keeps.bind ?_ fun _ => Keeps.ite (keeps_pure _) (owns_keeps_sound _ _)
    exact (assignView_keeps_sound pinged).bind fun _ =>
      Keeps.ite cleanHash_keeps_sound (keeps_pure _)
  · exact owns_keeps_sound _ _

theorem putSection_keeps_sound (query : PutArgs) :
    Keeps Process.Sound (putSection query) := by
  refine lockHash_keeps_sound.bind fun _ => (keeps_within ?_).bind fun _ =>
    lockView_keeps_sound.bind fun _ => (keeps_within ?_).bind fun _ =>
    Keeps.bind (fun _ hp => hp) fun _ => (keeps_within ?_).bind fun _ =>
    Keeps.bind (fun _ hp => hp) fun _ => keeps_pure _
  · intro h items hr h' a hrun
    rcases Handler.putEntry_spec hr query.key query.value with ⟨st, hput, hrep⟩
    rw [hput] at hrun
    cases hrun
    exact ⟨_, hrep⟩
  · intro h items hr h' a hrun
    cases hget : getServer (irHash query.key) h.currentView.view with
    | error e =>
        rw [hget] at hrun
        cases hrun
    | ok servers =>
        rw [hget] at hrun
        cases hrun
        exact ⟨items, hr⟩
  · intro h items hr h' a hrun
    cases hrun
    exact ⟨items, hr⟩

/-! ## Running a program -/

section Steps

variable {α β : Type} {x : Locked α} {f : α → Locked β} {p p' : Process} {a : α}

theorem bind_returns (hx : x p = .returns a p') : (x >>= f) p = f a p' := by
  show (match x p with
    | .returns a p => f a p
    | .throws p => .throws p
    | .stuck => .stuck) = _
  rw [hx]

theorem bind_throws (hx : x p = .throws p') : (x >>= f) p = .throws p' := by
  show (match x p with
    | .returns a p => f a p
    | .throws p => .throws p
    | .stuck => .stuck) = _
  rw [hx]

theorem bind_stuck (hx : x p = .stuck) : (x >>= f) p = .stuck := by
  show (match x p with
    | .returns a p => f a p
    | .throws p => .throws p
    | .stuck => .stuck) = _
  rw [hx]

theorem within_ok {g : Handler → Except Fault (Handler × α)} {h' : Handler}
    (hg : g p.handler = .ok (h', a)) : within g p = .returns a { p with handler := h' } := by
  simp only [within, hg]

theorem within_throws {g : Handler → Except Fault (Handler × α)}
    (hg : g p.handler = .error .emptyRing) : within g p = .throws p := by
  simp only [within, hg]

end Steps

/-! ## What a program leaves -/

section Ends

variable {α β : Type}

/-- `R` holds of the result and the state of a return, `T` of the state of an
exception. -/
def Ends (R : α → Process → Prop) (T : Process → Prop) : Outcome α → Prop
  | .returns a p => R a p
  | .throws p => T p
  | .stuck => True

theorem Ends.bind {x : Locked α} {f : α → Locked β} {p : Process} {R : α → Process → Prop}
    {R' : β → Process → Prop} {T : Process → Prop} (hx : Ends R T (x p))
    (hf : ∀ a p', R a p' → Ends R' T (f a p')) : Ends R' T ((x >>= f) p) := by
  show Ends R' T (match x p with
    | .returns a p => f a p
    | .throws p => .throws p
    | .stuck => .stuck)
  cases hxp : x p with
  | returns a p' =>
      rw [hxp] at hx
      exact hf a p' hx
  | throws p' =>
      rw [hxp] at hx
      exact hx
  | stuck => trivial

def At (h : Handler) (p : Process) : Prop := p.handler = h

theorem lockHash_ends (p : Process) (T : Process → Prop) :
    Ends (fun _ => At p.handler) T (lockHash p) := by
  unfold lockHash
  split
  · trivial
  · rfl

theorem lockView_ends (p : Process) (T : Process → Prop) :
    Ends (fun _ => At p.handler) T (lockView p) := by
  unfold lockView
  split
  · trivial
  · rfl

theorem within_ends (f : Handler → Except Fault (Handler × α)) (p : Process) :
    Ends (fun a p' => f p.handler = .ok (p'.handler, a))
      (fun p' => p'.handler = p.handler ∧ f p.handler = .error .emptyRing) (within f p) := by
  unfold within
  cases hf : f p.handler with
  | ok r => exact rfl
  | error e =>
      cases e with
      | emptyRing => exact ⟨rfl, rfl⟩
      | assertion => trivial
      | diverges => trivial

theorem Ends.imp {o : Outcome α} {R R' : α → Process → Prop} {T T' : Process → Prop}
    (h : Ends R T o) (hR : ∀ a p, R a p → R' a p) (hT : ∀ p, T p → T' p) : Ends R' T' o := by
  cases o with
  | returns a p => exact hR a p h
  | throws p => exact hT p h
  | stuck => trivial

theorem map_error {x : Except Fault α} {f : α → β} {e : Fault} (h : x.map f = .error e) :
    x = .error e := by
  cases x with
  | error e' => exact congrArg Except.error (Except.error.inj h)
  | ok a => cases h

theorem map_ok {x : Except Fault α} {f : α → β} {b : β} (h : x.map f = .ok b) :
    ∃ a, x = .ok a ∧ f a = b := by
  cases x with
  | error e => cases h
  | ok a => exact ⟨a, rfl, Except.ok.inj h⟩

theorem reads_ends {f : Handler → Except Fault α} (p : Process) :
    Ends (fun a p' => f p.handler = .ok a ∧ At p.handler p')
      (fun p' => f p.handler = .error .emptyRing ∧ At p.handler p')
      (within (fun h => (f h).map fun a => (h, a)) p) := by
  refine (within_ends _ p).imp (fun a p' h => ?_) fun p' h => ⟨map_error h.2, h.1⟩
  rcases map_ok h with ⟨b, hb, he⟩
  rcases Prod.mk.inj he with ⟨hh, rfl⟩
  exact ⟨hb, hh.symm⟩

theorem changes_ends {f : Handler → Except Fault Handler} (p : Process) :
    Ends (fun _ p' => f p.handler = .ok p'.handler)
      (fun p' => f p.handler = .error .emptyRing ∧ At p.handler p')
      (within (fun h => (f h).map fun h => (h, ())) p) := by
  refine (within_ends _ p).imp (fun a p' h => ?_) fun p' h => ⟨map_error h.2, h.1⟩
  rcases map_ok h with ⟨h', hh, he⟩
  rw [hh, (Prod.mk.inj he).1]

theorem cleanHash_ends (p : Process) :
    Ends (fun _ p' => p.handler.cleanHash = .ok p'.handler)
      (fun p' => p.handler.cleanHash = .error .emptyRing ∧ At p.handler p') (cleanHash p) := by
  refine (lockHash_ends p _).bind fun _ p₁ h₁ => ?_
  rw [← h₁]
  exact (changes_ends p₁).bind fun _ p₂ h₂ => h₂

theorem assignView_ends (view : GetServersReply) (p : Process) :
    Ends (fun needToClean p' => At { p.handler with currentView := view } p' ∧
        needToClean = decide (p.handler.currentView.viewNum ≠ view.viewNum))
      (fun _ => False) (assignView view p) := by
  refine (lockView_ends p _).bind fun _ p₁ h₁ => ?_
  rw [← h₁]
  exact ⟨rfl, rfl⟩

theorem readView_ends (p : Process) (T : Process → Prop) :
    Ends (fun view p' => view = p.handler.currentView ∧ At p.handler p') T (readView p) := by
  refine (lockView_ends p _).bind fun _ p₁ h₁ => ?_
  rw [← h₁]
  exact ⟨rfl, rfl⟩

theorem hashSection_ends (f : Handler → Except Fault (Handler × α)) (p : Process) :
    Ends (fun a p' => f p.handler = .ok (p'.handler, a)) (At p.handler)
      ((do lockHash; let a ← within f; unlockHash; return a : Locked α) p) := by
  refine (lockHash_ends p _).bind fun _ p₁ h₁ => ?_
  rw [← h₁]
  exact ((within_ends f p₁).imp (fun _ _ h => h) fun _ h => h.1).bind fun _ p₂ h₂ => h₂

theorem getSection_ends (query : GetArgs) (p : Process) :
    Ends (fun reply p' => p.handler.getLocked query = .ok (p'.handler, reply)) (At p.handler)
      (getSection query p) := hashSection_ends _ p

theorem mergeSection_ends (query : AntiEntropyArgs) (p : Process) :
    Ends (fun reply p' => p.handler.antiEntropyLocked query = .ok (p'.handler, reply))
      (At p.handler) (mergeSection query p) := hashSection_ends _ p

theorem processReply_ends (peer : Server) (reply : AntiEntropyReply) (p : Process) :
    Ends (fun _ p' => p.handler.replyLocked peer reply = .ok p'.handler)
      (fun p' => p.handler.replyLocked peer reply = .error .emptyRing ∧ At p.handler p')
      (processReply peer reply p) := by
  refine (lockHash_ends p _).bind fun _ p₁ h₁ => ?_
  rw [← h₁]
  exact (changes_ends (f := fun h => h.replyLocked peer reply) p₁).bind fun _ p₂ h₂ => h₂

/-- `put` writes the entry first and looks up the ring afterwards. -/
theorem putSection_ends (query : PutArgs) (p : Process) :
    Ends (fun _ p' => ∃ h₁ servers, p.handler.putEntry query.key query.value = .ok h₁ ∧
        getServer (irHash query.key) h₁.currentView.view = .ok servers ∧
        At (h₁.noteDiffs query.key servers) p')
      (fun p' => (p.handler.putEntry query.key query.value = .error .emptyRing ∧
          At p.handler p') ∨
        (p.handler.putEntry query.key query.value = .ok p'.handler ∧
          getServer (irHash query.key) p'.handler.currentView.view = .error .emptyRing))
      (putSection query p) := by
  refine (lockHash_ends p _).bind fun _ p₁ h₁ => ?_
  rw [← h₁]
  have hwrite := changes_ends (f := fun h => h.putEntry query.key query.value) p₁
  refine (hwrite.imp (fun _ _ h => h) fun _ h => .inl h).bind fun _ p₂ h₂ => ?_
  refine (lockView_ends p₂ _).bind fun _ p₃ h₃ => ?_
  have hentry : p₁.handler.putEntry query.key query.value = .ok p₃.handler := by rw [h₂, h₃]
  have hlookup := reads_ends (f := fun h => getServer (irHash query.key) h.currentView.view) p₃
  refine (hlookup.imp (fun _ _ h => h) fun p' h => ?_).bind fun servers p₄ h₄ => ?_
  · exact .inr ⟨by rw [hentry, h.2], by rw [h.2]; exact h.1⟩
  refine ⟨p₃.handler, servers, hentry, h₄.1, ?_⟩
  show p₄.handler.noteDiffs query.key servers = _
  rw [h₄.2]

theorem beginExchange_ends (p : Process) :
    Ends (fun sent p' => p.handler.snapshot = .ok sent ∧ At p.handler p')
      (fun p' => p.handler.snapshot = .error .emptyRing ∧ At p.handler p') (beginExchange p) := by
  refine (lockHash_ends p _).bind fun _ p₁ h₁ => ?_
  rw [← h₁]
  have hread : Ends (fun _ => At p₁.handler)
      (fun p' => p₁.handler.snapshot = .error .emptyRing ∧ At p₁.handler p')
      (readViewIf p₁.handler.nextPeer.isSome p₁) := by
    unfold readViewIf
    split
    · exact (readView_ends p₁ _).bind fun _ p₂ h₂ => h₂.2
    · rfl
  refine hread.bind fun _ p₂ h₂ => ?_
  rw [← h₂]
  exact (reads_ends p₂).bind fun sent p₃ h₃ => h₃

end Ends

end Locked

end RobustCache
