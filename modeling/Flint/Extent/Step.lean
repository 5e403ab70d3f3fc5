import Flint.Extent.Fence

/-!
# Transactions, runs and the database

`Op` lists the writing transactions of the allocator, and `step` is the effect of one: the new
tables when it commits, the old ones when it is rolled back.
-/

namespace Flint.Extent

open Outcome Function List

structure Budget where
  rows : Int
  pos : 0 < rows

/-- The bound the environment variable sets, and the default for anything else. -/
def extentRowBudget (var : Option String) : Budget :=
  match var.bind fun v => Decimal.parseInt (-i64Max - 1) i64Max v.toList with
  | some n => if h : 0 < n then ⟨n, h⟩ else ⟨65536, by decide⟩
  | none => ⟨65536, by decide⟩

inductive Op
  | registerVolume (sizeCeiling : UInt64)
  | expandVolume (newCeiling : UInt64)
  | grant (fileId clientId logicalOffset length : UInt64) (freshOnly : Bool)
  | grantRead (fileId clientId logicalOffset length : UInt64)
  | layoutReturn (fileId clientId logicalOffset length : UInt64)
  | commitExtents (fileId clientId logicalOffset length : UInt64)
  | reclaimComplete (fileId logicalOffset length : UInt64) (nowUnix : Int)
  | releaseQuarantine | sweepQuarantineDelivered
  | fenceClient (clientId : UInt64)
  | fenceRecord (clientId : UInt64) (nowUnix : Int)
  | markFenceDelivered (clientId : UInt64) (nowUnix : Int)
  | unfenceRecord (clientId : UInt64)
  | revokeClient (clientId : UInt64)
  | hostAdmit (clientId : UInt64) (hostNqn : String) (nowUnix : Int)
  | hostEvict (clientId : UInt64)
  | nodeAttach (hostNqn nodeName : String) (nowUnix : Int)
  | nodeDetach (hostNqn : String)
  | dropVolume
deriving DecidableEq

inductive Reply
  | done
  | count (n : UInt64)
  | rows (n : ℕ)
  | extents (granted : List GrantedExtent)
  | freed (out : FreeOutcome)
  | released (ranges bytes : UInt64)
  | flag (b : Bool)
  | name (n : String)
  | hosts (names : List String)
  | evicted (names remaining : List String)
  | detached (removed : Bool) (remaining : List String)
deriving DecidableEq

def answer {α : Type} (f : α → Reply) (x : Tx (Volume × α)) : Tx (Volume × Reply) := do
  let r ← x
  pure (r.1, f r.2)

variable {s : Volume}

theorem answer_ok {α : Type} {f : α → Reply} {x : Tx (Volume × α)} {r : Reply} :
    answer f x = .ok (s, r) ↔ ∃ a, x = .ok (s, a) ∧ r = f a := by
  unfold answer
  rw [bind_ok]
  constructor
  · rintro ⟨⟨s₁, a⟩, hx, hp⟩
    obtain ⟨rfl, rfl⟩ := Prod.mk.inj (pure_ok.mp hp)
    exact ⟨a, hx, rfl⟩
  · rintro ⟨a, hx, rfl⟩
    exact ⟨(s, a), hx, rfl⟩

variable (budget : Budget) (volume : String)

def exec (s : Volume) : Op → Tx (Volume × Reply)
  | .registerVolume c => answer (fun _ => .done) (registerVolume s c)
  | .expandVolume c => answer .count (expandVolume volume s c)
  | .grant f c o l fresh => answer .extents (grant budget.rows volume s f c o l fresh)
  | .grantRead f c o l => answer .extents (grantRead volume s f c o l)
  | .layoutReturn f c o l => answer .rows (layoutReturn volume s f c o l)
  | .commitExtents f c o l => answer .count (commitExtents s f c o l)
  | .reclaimComplete f o l now => answer .freed (reclaimComplete s f o l now)
  | .releaseQuarantine => answer .count (releaseQuarantine volume s)
  | .sweepQuarantineDelivered =>
    answer (fun r => .released r.1 r.2) (sweepQuarantineDelivered volume s)
  | .fenceClient c => answer .rows (fenceClient s c)
  | .fenceRecord c now => answer .name (fenceRecord s c now)
  | .markFenceDelivered c now => answer .flag (markFenceDelivered s c now)
  | .unfenceRecord c => answer .flag (unfenceRecord s c)
  | .revokeClient c => answer .count (revokeClient volume s c)
  | .hostAdmit c h now => answer .hosts (hostAdmit s c h now)
  | .hostEvict c => answer (fun r => .evicted r.1 r.2) (hostEvict s c)
  | .nodeAttach h n now => answer .hosts (nodeAttach s h n now)
  | .nodeDetach h => answer (fun r => .detached r.1 r.2) (nodeDetach s h)
  | .dropVolume => answer .count (dropVolume s)

def step (s : Volume) (op : Op) : Volume :=
  match exec budget volume s op with
  | .ok (s', _) => s'
  | .error _ => s

abbrev runOps (s : Volume) (ops : List Op) : Volume := Outcome.run (step budget volume) s ops

variable {budget volume}

theorem runOps_cons (s : Volume) (op : Op) (ops : List Op) :
    runOps budget volume s (op :: ops) = runOps budget volume (step budget volume s op) ops := rfl

theorem runOps_append (s : Volume) (ops ops' : List Op) :
    runOps budget volume s (ops ++ ops') =
      runOps budget volume (runOps budget volume s ops) ops' := run_append ..

theorem step_of_ok {s s' : Volume} {op : Op} {r : Reply}
    (h : exec budget volume s op = .ok (s', r)) : step budget volume s op = s' := by
  unfold step
  rw [h]

theorem step_of_error {op : Op} {e : ExtentAllocError}
    (h : exec budget volume s op = .error e) : step budget volume s op = s := by
  unfold step
  rw [h]

theorem exec_of_reply {op : Op} {r : Reply} (h : (exec budget volume s op).map Prod.snd = .ok r) :
    exec budget volume s op = .ok (step budget volume s op, r) := by
  unfold step
  cases hx : exec budget volume s op with
  | error e =>
    rw [hx] at h
    cases h
  | ok p =>
    rw [hx] at h
    rw [← Except.ok.inj h]

theorem step_cases (budget : Budget) (volume : String) (s : Volume) (op : Op) :
    (∃ r, exec budget volume s op = .ok (step budget volume s op, r)) ∨
      step budget volume s op = s := by
  cases h : exec budget volume s op with
  | error e =>
    right
    unfold step
    rw [h]
  | ok p =>
    left
    refine ⟨p.2, ?_⟩
    rw [step_of_ok h]

theorem step_invariant {P : Volume → Prop} {op : Op} (hs : P s)
    (hxc : ∀ s' r, exec budget volume s op = .ok (s', r) → P s') :
    P (step budget volume s op) := by
  rcases step_cases budget volume s op with ⟨r, h⟩ | h
  · exact hxc _ r h
  · rw [h]
    exact hs

abbrev Db := String → Volume

def Db.step (budget : Budget) (db : Db) (req : String × Op) : Db :=
  update db req.1 (Extent.step budget req.1 (db req.1) req.2)

def opsOn (volume : String) (reqs : List (String × Op)) : List Op :=
  (reqs.filter fun q => q.1 = volume).map Prod.snd

/-- **Volumes do not interfere**: each is where the run of its own transactions leads. -/
theorem Db.run_apply (db : Db) (reqs : List (String × Op)) (name : String) :
    run (Db.step budget) db reqs name = runOps budget name (db name) (opsOn name reqs) := by
  induction reqs generalizing db with
  | nil => rfl
  | cons q reqs ih =>
    rw [run_cons, ih]
    unfold opsOn
    by_cases hq : q.1 = name
    · subst hq
      rw [filter_cons_of_pos (by simp), map_cons]
      change _ = runOps budget q.1 (Extent.step budget q.1 (db q.1) q.2) _
      unfold Db.step
      rw [update_self]
    · rw [filter_cons_of_neg (by simpa using hq)]
      unfold Db.step
      rw [update_of_ne (Ne.symm hq)]

end Flint.Extent
