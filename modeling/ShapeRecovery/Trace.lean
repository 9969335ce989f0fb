import ShapeRecovery.Fault

namespace ShapeRecovery

/-- The parts of the analysis that write messages. -/
inductive Channel
  | divisor
  | collection
  | dimension
  | analysis
deriving DecidableEq, Repr

def Channel.name : Channel → String
  | divisor => "DELIN.gcd"
  | collection => "DELIN.collect"
  | dimension => "DELIN.dims"
  | analysis => "DELIN.delinearize"

structure Message where
  channel : Channel
  text : String
deriving DecidableEq, Repr

/-- A message as it is shown, after the name of its channel and broken at line breaks. -/
def Message.lines (m : Message) : List String :=
  s!"[{m.channel.name}] {m.text}".splitOn "\n"

structure Logged (α : Type) where
  value : α
  log : List Message

namespace Logged

instance : Monad Logged where
  pure a := ⟨a, []⟩
  bind x f := ⟨(f x.value).value, x.log ++ (f x.value).log⟩

instance : LawfulMonad Logged :=
  LawfulMonad.mk' _
    (fun _ => by simp [Functor.map])
    (fun _ _ => by simp [pure, bind])
    (fun _ _ _ => by simp [bind, List.append_assoc])

end Logged

/-- An analysis step: it writes messages and ends in a result or a refusal. -/
abbrev Traced := ExceptT Fault Logged

/-- An analysis step on a state. -/
abbrev Tracked (σ : Type) := ExceptT Fault (StateT σ Logged)

namespace Traced

/-- A step without messages. -/
def ofExcept {α : Type} (x : Except Fault α) : Traced α :=
  ExceptT.mk (pure x)

def say (channel : Channel) (text : String) : Traced Unit :=
  ExceptT.mk ⟨.ok (), [⟨channel, text⟩]⟩

/-- The result, without the messages. -/
def outcome {α : Type} (x : Traced α) : Except Fault α :=
  (ExceptT.run x).value

def log {α : Type} (x : Traced α) : List Message :=
  (ExceptT.run x).log

variable {α β : Type}

@[simp] theorem outcome_pure (a : α) : outcome (pure a : Traced α) = .ok a := rfl

@[simp] theorem outcome_throw (e : Fault) : outcome (throw e : Traced α) = .error e := rfl

@[simp] theorem outcome_ofExcept (x : Except Fault α) : outcome (ofExcept x) = x := rfl

@[simp] theorem outcome_say (c : Channel) (t : String) : outcome (say c t) = .ok () := rfl

/-- Messages do not change how an analysis goes on. -/
@[simp] theorem outcome_bind (x : Traced α) (f : α → Traced β) :
    outcome (x >>= f) = (outcome x >>= fun a => outcome (f a)) := by
  change (ExceptT.bindCont f x.run.value).value = _
  cases h : x.run.value with
  | error e => simp only [outcome, h]; rfl
  | ok a => simp only [outcome, h]; rfl

end Traced

instance : MonadLift (Except Fault) Traced := ⟨Traced.ofExcept⟩

@[simp] theorem Traced.outcome_lift {α : Type} (x : Except Fault α) :
    Traced.outcome (liftM x : Traced α) = x := rfl

namespace Tracked

variable {σ α β : Type}

/-- A step that leaves the state alone. -/
def ofTraced (x : Traced α) : Tracked σ α :=
  ExceptT.mk fun s => do
    let a ← ExceptT.run x
    return (a, s)

/-- Run a step from a state: its result, the state it leaves and the messages. -/
def runFrom (x : Tracked σ α) (s : σ) : Logged (Except Fault α × σ) :=
  StateT.run (ExceptT.run x) s

def say (channel : Channel) (text : String) : Tracked σ Unit :=
  ofTraced (Traced.say channel text)

/-- Run a step on a state of its own; only its result is kept. -/
def finalState (x : Tracked σ Unit) (s : σ) : Traced σ :=
  ExceptT.mk do
    let (result, s) ← runFrom x s
    return result.map fun _ => s

/-- The result of a step and the state it leaves, without the messages. -/
def outcome (x : Tracked σ α) (s : σ) : Except Fault α × σ :=
  (runFrom x s).value

@[simp] theorem outcome_pure (a : α) (s : σ) :
    outcome (pure a : Tracked σ α) s = (.ok a, s) := rfl

@[simp] theorem outcome_throw (e : Fault) (s : σ) :
    outcome (throw e : Tracked σ α) s = (.error e, s) := rfl

@[simp] theorem outcome_get (s : σ) : outcome (get : Tracked σ σ) s = (.ok s, s) := rfl

@[simp] theorem outcome_modify (f : σ → σ) (s : σ) :
    outcome (modify f : Tracked σ Unit) s = (.ok (), f s) := rfl

@[simp] theorem outcome_say (c : Channel) (t : String) (s : σ) :
    outcome (say c t : Tracked σ Unit) s = (.ok (), s) := rfl

/-- The second step runs on the state that the first one leaves, unless that was refused. -/
theorem outcome_bind (x : Tracked σ α) (f : α → Tracked σ β) (s : σ) :
    outcome (x >>= f) s =
      match outcome x s with
      | (.ok a, t) => outcome (f a) t
      | (.error e, t) => (.error e, t) := by
  change (StateT.run (ExceptT.bindCont f (x.run.run s).value.1) (x.run.run s).value.2).value = _
  simp only [outcome, runFrom]
  generalize (x.run.run s).value = p
  obtain ⟨_ | a, t⟩ := p <;> rfl

theorem outcome_finalState (x : Tracked σ Unit) (s : σ) :
    (finalState x s).outcome = (outcome x s).1.map fun _ => (outcome x s).2 := rfl

end Tracked

instance {σ : Type} : MonadLift Traced (Tracked σ) := ⟨Tracked.ofTraced⟩

instance {σ : Type} : MonadLift (Except Fault) (Tracked σ) :=
  ⟨fun x => Tracked.ofTraced (Traced.ofExcept x)⟩

namespace Tracked

variable {σ α : Type}

@[simp] theorem outcome_lift (x : Traced α) (s : σ) :
    outcome (liftM x : Tracked σ α) s = (x.outcome, s) := rfl

@[simp] theorem outcome_lift_except (x : Except Fault α) (s : σ) :
    outcome (liftM x : Tracked σ α) s = (x, s) := rfl

end Tracked

end ShapeRecovery
