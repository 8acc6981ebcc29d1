import RobustCache.Lib.Decimal
import RobustCache.Cluster.Provenance

/-! # The blog in front of the cache

`HTTPServer.java`: the posts of a user come from the cache, or else from the database, and
are then put into the cache under the user's number. Any number of such servers run
against one cluster, where other clients put under other keys. Whatever the cluster and
the database do, a page shows posts that the database has returned for its user.
-/

namespace RobustCache

open Lib

/-! ## Values with a property -/

namespace Cluster

variable {good good' : Bytes → Bytes → Prop} {c c' : Cluster} {a : Action}

/-- Every value that is stored, sent or about to be put has the property. -/
structure Values (good : Bytes → Bytes → Prop) (c : Cluster) : Prop where
  stored : ∀ it, c.Copy it → good it.key it.value
  called : ∀ s t args, c.tasks s = some t → t.call? = some (.put args) →
    good args.key args.value

theorem Values.mono (h : c.Values good) (himp : ∀ key value, good key value → good' key value) :
    c.Values good' :=
  ⟨fun it hit => himp _ _ (h.stored it hit),
    fun s t args ht hcall => himp _ _ (h.called s t args ht hcall)⟩

theorem initial_values (good : Bytes → Bytes → Prop) : initial.Values good := by
  constructor
  · intro it hit
    exact absurd hit (not_copy_of_idle (fun s => rfl) (fun s => rfl) (fun s => rfl) rfl it)
  · intro s t args ht
    cases ht

theorem Moves.values (h : Moves c a c') (hs : Sound c) (hvalues : c.Values good)
    (hput : ∀ s args, a = .on s (.request (.put args)) → good args.key args.value) :
    c'.Values good := by
  constructor
  · intro it hit
    rcases h.descends hs hit with ⟨s, args, ⟨b, -, -, htask⟩, rfl⟩ | ⟨old, hold, hkey, hvalue, -⟩
    · exact hvalues.called s _ args htask rfl
    · rw [← hkey, ← hvalue]
      exact hvalues.stored old hold
  · intro s t args ht hcall
    cases h.on_or_frame hs with
    | inl hon =>
        obtain ⟨s', b, n, rfl, rfl, hdoes⟩ := hon
        rw [tasks_set] at ht
        rcases update_cases ht with ⟨rfl, hnew⟩ | ⟨-, hold⟩
        · rcases hdoes.call hnew hcall with rfl | ⟨t', ht', hcall'⟩
          · exact hput s args rfl
          · exact hvalues.called s t' args ht' hcall'
        · exact hvalues.called s t args hold hcall
    | inr hframe =>
        rcases hframe.tasks s t ht with hold | ⟨sender, query, rfl⟩
        · exact hvalues.called s t args hold hcall
        · cases hcall

theorem Values.read (hvalues : c.Values good) (hs : Sound c) {s : Server} {args : GetArgs}
    {h : Handler} {reply : GetReply} (hget : (c.handlers s).getLocked args = .ok (h, reply))
    (hok : reply.status = .ok) : good args.key reply.value := by
  obtain ⟨st, hrun, -⟩ := Handler.getLocked_spec (hs.represents s) args
  rw [hrun] at hget
  obtain ⟨-, rfl⟩ := Prod.mk.inj (Except.ok.inj hget)
  unfold Lru.get at hok ⊢
  cases hlook : Lru.lookup args.key (c.items s) with
  | none =>
      rw [hlook] at hok
      cases hok
  | some it =>
      obtain ⟨hmem, hkey⟩ := (Recency.lookup_some (hs.represents s).distinct).mp hlook
      rw [← hkey]
      exact hvalues.stored it (.inl ⟨s, hmem⟩)

end Cluster

/-! ## The servers of the blog -/

namespace Java

/-- `Integer.toString`, as the bytes that Thrift sends. -/
def toString (n : Int) : Bytes := (intChars n).map (Fin.ofNat 256)

/-- `Integer.parseInt`; the exception is `none`. -/
def parseInt (s : Bytes) : Option Int :=
  (readInt (s.map Fin.val)).filter fun n => -2147483648 ≤ n ∧ n < 2147483648

theorem map_val_toString (n : Int) : (Java.toString n).map Fin.val = intChars n := by
  unfold Java.toString
  rw [List.map_map]
  conv_rhs => rw [← List.map_id (intChars n)]
  apply List.map_congr_left
  intro c hc
  have hlt := intChars_lt n c hc
  exact Nat.mod_eq_of_lt (by omega)

theorem toString_injective : Function.Injective Java.toString := by
  intro m n h
  apply intChars_injective
  rw [← map_val_toString m, ← map_val_toString n, h]

end Java

/-- The user of a request: `Integer.parseInt` of the path without its first character. -/
def userOf (uri : Bytes) : Int := (Java.parseInt (uri.drop 1)).getD (-1)

/-- Where a server of the blog is in its request. -/
inductive Visit (Post : Type) where
  | idle
  /-- The cache server has the call of `get`. -/
  | looking (user : Int) (server : Server) (args : GetArgs)
  /-- `get` has thrown, and the database is next. -/
  | missed (user : Int)
  /-- The database has answered, and `put` is next. -/
  | loaded (user : Int) (posts : List Post)
  /-- `getPosts` returns, and the page is next. -/
  | ready (user : Int) (posts : List Post)

structure Blog (Post : Type) where
  cluster : Cluster := Cluster.initial
  visits : Nat → Visit Post := fun _ => .idle

inductive BlogStep (Post : Type) where
  /-- A request arrives, and the call of `get` reaches a cache server. -/
  | visit (i : Nat) (uri : Bytes) (server : Server) (viewNum : Int)
  /-- A request arrives, and `get` throws before its call reaches a server. -/
  | visitFails (i : Nat) (uri : Bytes)
  /-- The cache server answers the call of `get`. -/
  | answer (i : Nat)
  /-- The call of `get` throws, or is answered with `WRONG_SERVER`. -/
  | exception (i : Nat)
  /-- `getPostsFromDB`; no result is an `SQLException`. -/
  | query (i : Nat) (posts : Option (List Post))
  /-- The call of `put` reaches a cache server; nobody looks at its result. -/
  | store (i : Nat) (server : Server) (viewNum : Int)
  /-- `put` throws before its call reaches a server. -/
  | storeFails (i : Nat)
  /-- `handle` writes the page. -/
  | respond (i : Nat)
  /-- Anything else that happens in the cluster, among it puts of other clients. -/
  | other (a : Action)

inductive BlogEvent (Post : Type) where
  | answered (user : Int) (posts : List Post)
  | sqlException (user : Int)
  | shown (user : Int) (posts : List Post)
deriving DecidableEq

namespace Blog

variable {Post : Type} (serialize : List Post → Option Bytes)
  (deserialize : Bytes → Option (List Post))

def place (b : Blog Post) (i : Nat) (v : Visit Post) : Blog Post :=
  { b with visits := Function.update b.visits i v }

def act (b : Blog Post) (a : Action) (i : Nat) (v : Visit Post) : Option (Blog Post) :=
  (b.cluster.step a).map fun cluster => { b with cluster }.place i v

/-- What `get` returns when the cache server runs its locked section. -/
def cached (b : Blog Post) (server : Server) (args : GetArgs) : Option (List Post) :=
  match (b.cluster.handlers server).getLocked args with
  | .ok (_, reply) => if reply.status = .ok then deserialize reply.value else none
  | .error _ => none

/-- The arrival of a put under the number of a user. -/
def putsForUser : Action → Bool
  | .on _ (.request (.put args)) =>
      (readInt (args.key.map Fin.val)).any fun user => decide (Java.toString user = args.key)
  | _ => false

def step (b : Blog Post) : BlogStep Post → Option (Blog Post)
  | .visit i uri server viewNum =>
      match b.visits i with
      | .idle =>
          let args : GetArgs := ⟨Java.toString (userOf uri), viewNum⟩
          b.act (.on server (.request (.get args))) i (.looking (userOf uri) server args)
      | _ => none
  | .visitFails i uri =>
      match b.visits i with
      | .idle => some (b.place i (.missed (userOf uri)))
      | _ => none
  | .answer i =>
      match b.visits i with
      | .looking user server args =>
          match b.cluster.tasks server with
          | some (.serving (.get args')) =>
              if args' = args then
                b.act (.on server .serve) i
                  (match b.cached deserialize server args with
                  | some posts => .ready user posts
                  | none => .missed user)
              else none
          | _ => none
      | _ => none
  | .exception i =>
      match b.visits i with
      | .looking user _ _ => some (b.place i (.missed user))
      | _ => none
  | .query i result =>
      match b.visits i with
      | .missed user =>
          match result with
          | some posts => some (b.place i (.loaded user posts))
          | none => some (b.place i (.ready user []))
      | _ => none
  | .store i server viewNum =>
      match b.visits i with
      | .loaded user posts =>
          match serialize posts with
          | some value =>
              b.act (.on server (.request (.put ⟨Java.toString user, value, viewNum⟩))) i
                (.ready user posts)
          | none => none
      | _ => none
  | .storeFails i =>
      match b.visits i with
      | .loaded user posts => some (b.place i (.ready user posts))
      | _ => none
  | .respond i =>
      match b.visits i with
      | .ready _ _ => some (b.place i .idle)
      | _ => none
  | .other a =>
      if putsForUser a then none else (b.cluster.step a).map fun cluster => { b with cluster }

def event (b : Blog Post) : BlogStep Post → Option (BlogEvent Post)
  | .query i result =>
      match b.visits i, result with
      | .missed user, some posts => some (.answered user posts)
      | .missed user, none => some (.sqlException user)
      | _, _ => none
  | .respond i =>
      match b.visits i with
      | .ready user posts => some (.shown user posts)
      | _ => none
  | _ => none

/-! ## What a step can do -/

variable {serialize deserialize}

/-- The steps of the blog, with what each one changes. -/
inductive Moves (serialize : List Post → Option Bytes) (deserialize : Bytes → Option (List Post))
    (b : Blog Post) : BlogStep Post → Blog Post → Prop
  | visit {i : Nat} {uri : Bytes} {server : Server} {viewNum : Int} {cluster : Cluster}
      (hidle : b.visits i = .idle)
      (hstep : b.cluster.step (.on server
        (.request (.get ⟨Java.toString (userOf uri), viewNum⟩))) = some cluster) :
      Moves serialize deserialize b (.visit i uri server viewNum)
        ({ b with cluster }.place i
          (.looking (userOf uri) server ⟨Java.toString (userOf uri), viewNum⟩))
  | visitFails {i : Nat} {uri : Bytes} (hidle : b.visits i = .idle) :
      Moves serialize deserialize b (.visitFails i uri) (b.place i (.missed (userOf uri)))
  | hit {i : Nat} {user : Int} {server : Server} {args : GetArgs} {posts : List Post}
      {cluster : Cluster} (hlooking : b.visits i = .looking user server args)
      (hcached : b.cached deserialize server args = some posts)
      (hstep : b.cluster.step (.on server .serve) = some cluster) :
      Moves serialize deserialize b (.answer i) ({ b with cluster }.place i (.ready user posts))
  | miss {i : Nat} {user : Int} {server : Server} {args : GetArgs} {cluster : Cluster}
      (hlooking : b.visits i = .looking user server args)
      (hstep : b.cluster.step (.on server .serve) = some cluster) :
      Moves serialize deserialize b (.answer i) ({ b with cluster }.place i (.missed user))
  | exception {i : Nat} {user : Int} {server : Server} {args : GetArgs}
      (hlooking : b.visits i = .looking user server args) :
      Moves serialize deserialize b (.exception i) (b.place i (.missed user))
  | returned {i : Nat} {user : Int} {posts : List Post} (hmissed : b.visits i = .missed user) :
      Moves serialize deserialize b (.query i (some posts)) (b.place i (.loaded user posts))
  | sqlException {i : Nat} {user : Int} (hmissed : b.visits i = .missed user) :
      Moves serialize deserialize b (.query i none) (b.place i (.ready user []))
  | store {i : Nat} {user : Int} {posts : List Post} {value : Bytes} {server : Server}
      {viewNum : Int} {cluster : Cluster} (hloaded : b.visits i = .loaded user posts)
      (hvalue : serialize posts = some value)
      (hstep : b.cluster.step (.on server
        (.request (.put ⟨Java.toString user, value, viewNum⟩))) = some cluster) :
      Moves serialize deserialize b (.store i server viewNum)
        ({ b with cluster }.place i (.ready user posts))
  | storeFails {i : Nat} {user : Int} {posts : List Post}
      (hloaded : b.visits i = .loaded user posts) :
      Moves serialize deserialize b (.storeFails i) (b.place i (.ready user posts))
  | respond {i : Nat} {user : Int} {posts : List Post} (hready : b.visits i = .ready user posts) :
      Moves serialize deserialize b (.respond i) (b.place i .idle)
  | other {a : Action} {cluster : Cluster} (hother : putsForUser a = false)
      (hstep : b.cluster.step a = some cluster) :
      Moves serialize deserialize b (.other a) { b with cluster }

section Steps

variable {b b' : Blog Post}

theorem answer_moves {i : Nat} (h : b.step serialize deserialize (.answer i) = some b') :
    Moves serialize deserialize b (.answer i) b' := by
  simp only [step] at h
  split at h
  · next user server args hlooking =>
    split at h
    · split at h
      · obtain ⟨cluster, hstep, rfl⟩ := Option.map_eq_some_iff.mp h
        cases hcached : b.cached deserialize server args with
        | some posts => exact .hit hlooking hcached hstep
        | none => exact .miss hlooking hstep
      · cases h
    · cases h
  · cases h

theorem store_moves {i : Nat} {server : Server} {viewNum : Int}
    (h : b.step serialize deserialize (.store i server viewNum) = some b') :
    Moves serialize deserialize b (.store i server viewNum) b' := by
  simp only [step] at h
  split at h
  · next user posts hloaded =>
    split at h
    · next value hvalue =>
      obtain ⟨cluster, hstep, rfl⟩ := Option.map_eq_some_iff.mp h
      exact .store hloaded hvalue hstep
    · cases h
  · cases h

theorem step_moves {p : BlogStep Post} (h : b.step serialize deserialize p = some b') :
    Moves serialize deserialize b p b' := by
  cases p with
  | answer i => exact answer_moves h
  | store i server viewNum => exact store_moves h
  | visit i uri server viewNum =>
      simp only [step] at h
      split at h
      · next hidle =>
        obtain ⟨cluster, hstep, rfl⟩ := Option.map_eq_some_iff.mp h
        exact .visit hidle hstep
      · cases h
  | visitFails i uri =>
      simp only [step] at h
      split at h
      · next hidle => cases h; exact .visitFails hidle
      · cases h
  | exception i =>
      simp only [step] at h
      split at h
      · next hlooking => cases h; exact .exception hlooking
      · cases h
  | query i result =>
      simp only [step] at h
      split at h
      · next hmissed =>
        cases result with
        | some posts => cases h; exact .returned hmissed
        | none => cases h; exact .sqlException hmissed
      · cases h
  | storeFails i =>
      simp only [step] at h
      split at h
      · next hloaded => cases h; exact .storeFails hloaded
      · cases h
  | respond i =>
      simp only [step] at h
      split at h
      · next hready => cases h; exact .respond hready
      · cases h
  | other a =>
      simp only [step] at h
      split at h
      · cases h
      · next hother =>
        obtain ⟨cluster, hstep, rfl⟩ := Option.map_eq_some_iff.mp h
        exact .other (Bool.eq_false_iff.mpr hother) hstep

end Steps

end Blog

/-! ## What every run keeps -/

variable {Post : Type} {serialize : List Post → Option Bytes}
  {deserialize : Bytes → Option (List Post)} {log : List (BlogEvent Post)}

/-- The database has returned the posts for the user, or has failed and there are none. -/
def Returned (log : List (BlogEvent Post)) (user : Int) (posts : List Post) : Prop :=
  .answered user posts ∈ log ∨ (posts = [] ∧ .sqlException user ∈ log)

/-- A page shows what the database has returned before. -/
def BlogEvent.FromDatabase (before : List (BlogEvent Post)) : BlogEvent Post → Prop
  | .shown user posts => Returned before user posts
  | _ => True

/-- Under the number of a user stands what a server of the blog puts there. -/
def Known (serialize : List Post → Option Bytes) (log : List (BlogEvent Post))
    (key value : Bytes) : Prop :=
  ∀ user, key = Java.toString user →
    ∃ posts, serialize posts = some value ∧ .answered user posts ∈ log

/-- Puts of other clients are under other keys. -/
theorem known_of_other {s : Server} {args : PutArgs}
    (h : Blog.putsForUser (.on s (.request (.put args))) = false) :
    Known serialize log args.key args.value := by
  intro user hkey
  have hread : readInt (args.key.map Fin.val) = some user := by
    rw [hkey, Java.map_val_toString, readInt_intChars]
  rw [Blog.putsForUser, hread, Option.any_some, ← hkey, decide_eq_false_iff_not] at h
  exact absurd rfl h

/-- What a server remembers of its request is right. -/
def Visit.Fits (log : List (BlogEvent Post)) : Visit Post → Prop
  | .idle => True
  | .looking user _ args => args.key = Java.toString user
  | .missed _ => True
  | .loaded user posts => .answered user posts ∈ log
  | .ready user posts => Returned log user posts

theorem Visit.Fits.append {v : Visit Post} (h : v.Fits log) (log' : List (BlogEvent Post)) :
    v.Fits (log ++ log') := by
  cases v with
  | idle => trivial
  | looking user server args => exact h
  | missed user => trivial
  | loaded user posts => exact List.mem_append_left _ h
  | ready user posts =>
      exact h.imp (List.mem_append_left _) (And.imp_right (List.mem_append_left _))

namespace Blog

variable {b b' : Blog Post}

structure Stocked (serialize : List Post → Option Bytes) (b : Blog Post)
    (log : List (BlogEvent Post)) : Prop where
  sound : b.cluster.Sound
  values : b.cluster.Values (Known serialize log)
  fits : ∀ i, (b.visits i).Fits log

theorem Stocked.append (h : Stocked serialize b log) (log' : List (BlogEvent Post)) :
    Stocked serialize b (log ++ log') := by
  refine ⟨h.sound, h.values.mono ?_, fun i => (h.fits i).append log'⟩
  intro key value hknown user hkey
  obtain ⟨posts, hvalue, hmem⟩ := hknown user hkey
  exact ⟨posts, hvalue, List.mem_append_left _ hmem⟩

theorem Stocked.place (h : Stocked serialize b log) (i : Nat) {v : Visit Post} (hv : v.Fits log) :
    Stocked serialize (b.place i v) log := by
  refine ⟨h.sound, h.values, fun j => ?_⟩
  show (Function.update b.visits i v j).Fits log
  by_cases hj : j = i
  · rw [hj, Function.update_self]
    exact hv
  · rw [Function.update_of_ne hj]
    exact h.fits j

/-- A step of the cluster in which nobody puts anything but what the database has
returned. -/
theorem Stocked.move (h : Stocked serialize b log) {a : Action} {cluster : Cluster}
    (hstep : b.cluster.step a = some cluster)
    (hput : ∀ s args, a = .on s (.request (.put args)) → Known serialize log args.key args.value) :
    Stocked serialize { b with cluster } log := by
  have hmoves := Cluster.step_moves hstep
  exact ⟨hmoves.sound h.sound, hmoves.values h.sound h.values hput, h.fits⟩

theorem Stocked.cached (h : Stocked serialize b log)
    (hround : ∀ posts value, serialize posts = some value → deserialize value = some posts)
    {user : Int} {server : Server} {args : GetArgs} (hkey : args.key = Java.toString user)
    {posts : List Post} (hcached : b.cached deserialize server args = some posts) :
    .answered user posts ∈ log := by
  unfold Blog.cached at hcached
  split at hcached
  · next h' reply hget =>
    split at hcached
    · next hok =>
      obtain ⟨posts', hvalue, hmem⟩ := h.values.read h.sound hget hok user hkey
      rw [hround posts' _ hvalue] at hcached
      cases hcached
      exact hmem
    · cases hcached
  · cases hcached

theorem Moves.stocked
    (hround : ∀ posts value, serialize posts = some value → deserialize value = some posts)
    {p : BlogStep Post} (h : Moves serialize deserialize b p b') (hs : Stocked serialize b log) :
    Stocked serialize b' (log ++ (b.event p).toList) := by
  have hs' := hs.append (b.event p).toList
  have hfits : ∀ {i : Nat} {v : Visit Post}, b.visits i = v → v.Fits (log ++ (b.event p).toList) :=
    fun hv => hv ▸ hs'.fits _
  cases h with
  | visit hidle hstep => exact (hs'.move hstep fun _ _ he => by cases he).place _ rfl
  | visitFails hidle => exact hs'.place _ trivial
  | hit hlooking hcached hstep =>
      have hmem := hs'.cached hround (hfits hlooking) hcached
      exact (hs'.move hstep fun _ _ he => by cases he).place _ (.inl hmem)
  | miss hlooking hstep => exact (hs'.move hstep fun _ _ he => by cases he).place _ trivial
  | exception hlooking => exact hs'.place _ trivial
  | @returned i user posts hmissed =>
      apply hs'.place
      show .answered user posts ∈ log ++ (b.event (.query i (some posts))).toList
      simp [event, hmissed]
  | sqlException hmissed =>
      apply hs'.place
      right
      simp [event, hmissed]
  | store hloaded hvalue hstep =>
      refine (hs'.move hstep fun s args he user' hkey => ?_).place _ (.inl (hfits hloaded))
      cases he
      cases Java.toString_injective hkey
      exact ⟨_, hvalue, hfits hloaded⟩
  | storeFails hloaded => exact hs'.place _ (.inl (hfits hloaded))
  | respond hready => exact hs'.place _ trivial
  | other hother hstep =>
      refine hs'.move hstep fun s args he => ?_
      subst he
      exact known_of_other hother

theorem ready_of_shown {p : BlogStep Post} {user : Int} {posts : List Post}
    (h : b.event p = some (.shown user posts)) : ∃ i, b.visits i = .ready user posts := by
  unfold event at h
  split at h
  · split at h
    · cases h
    · cases h
    · cases h
  · next i =>
    split at h
    · next user' posts' hready =>
      cases h
      exact ⟨i, hready⟩
    · cases h
  · cases h

theorem initial_stocked : Stocked serialize ({} : Blog Post) [] :=
  ⟨Cluster.initial_sound, Cluster.initial_values _, fun _ => trivial⟩

/-- In every run, with whatever happens in the cluster and whatever the database answers,
a page shows the posts that the database has returned for its user at some time before,
or none if the database has failed. Only the blog puts under the numbers of users. -/
theorem pages_from_database
    (hround : ∀ posts value, serialize posts = some value → deserialize value = some posts)
    (h : Trace (step serialize deserialize) anyAction event {} b log) :
    Ordered BlogEvent.FromDatabase log := by
  have hinv : Stocked serialize b log ∧ Ordered BlogEvent.FromDatabase log := by
    apply h.invariant
      (P := fun b log => Stocked serialize b log ∧ Ordered BlogEvent.FromDatabase log)
    · exact ⟨initial_stocked, ordered_nil _⟩
    · rintro b p b' log ⟨hstocked, hordered⟩ - hstep
      refine ⟨(step_moves hstep).stocked hround hstocked, hordered.extend fun e he => ?_⟩
      cases e with
      | answered user posts => trivial
      | sqlException user => trivial
      | shown user posts =>
          obtain ⟨i, hready⟩ := ready_of_shown he
          have hfit := hstocked.fits i
          rw [hready] at hfit
          exact hfit
  exact hinv.2

/-- A server of the blog fills the cache for a user, another client puts under a key of
its own, and another server of the blog finds the posts. -/
def missThenHit (a : Server) : List (BlogStep (Fin 256)) :=
  [.visit 0 [47, 55] a 1, .other (.on a (.refresh { view := View.single [a], viewNum := 1 })),
    .other (.on a .assign), .other (.on a .clean), .answer 0, .query 0 (some [9]), .store 0 a 1,
    .other (.on a .serve), .respond 0, .other (.on a (.request (.put ⟨[97], [8], 1⟩))),
    .other (.on a .serve), .visit 1 [47, 55] a 1, .answer 1, .respond 1]

theorem pages_from_database_missThenHit :
    ∃ b log, Trace (step some some) anyAction event {} b log ∧
      log = [.answered 7 [9], .shown 7 [9], .shown 7 [9]] ∧
      Ordered BlogEvent.FromDatabase log := by
  have hrun : ((record (step some some) anyAction event {} (missThenHit ⟨[1], 1⟩)).map Prod.snd) =
      some [.answered 7 [9], .shown 7 [9], .shown 7 [9]] := by
    decide +kernel
  obtain ⟨⟨b, log⟩, hrec, hlog⟩ := Option.map_eq_some_iff.mp hrun
  have htrace := trace_of_record hrec
  refine ⟨b, log, htrace, hlog, pages_from_database ?_ htrace⟩
  intro posts value hvalue
  exact hvalue.symm

end Blog

end RobustCache
