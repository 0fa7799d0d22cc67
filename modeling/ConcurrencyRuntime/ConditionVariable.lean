import Mathlib

/-!
# Condition variables

A condition variable knows the threads that sleep in its wait and the threads
that a notification took out of it and that have not run since. A notification
of one thread takes an arbitrary sleeper, named by whoever runs the system; it
has no effect only when nobody sleeps. A sleeper may also wake up by itself.
-/

namespace ConcurrencyRuntime.ConditionVariable

/-- The threads inside wait, each of them once. -/
structure CondVar (T : Type*) where
  /-- The threads that sleep. -/
  asleep : List T
  /-- The threads that were notified and have not got the mutex back. -/
  notified : List T
  nodup : (asleep ++ notified).Nodup

variable {T : Type*} [DecidableEq T]

/-- Nobody waits. -/
def CondVar.new (T : Type*) : CondVar T := ⟨[],[],List.nodup_nil⟩

/-- A thread goes to sleep; it cannot wait twice. -/
def CondVar.wait (c : CondVar T) (t : T) : CondVar T :=
  if h : t ∈ c.asleep ++ c.notified then c
  else ⟨t :: c.asleep,c.notified,List.nodup_cons.mpr ⟨h,c.nodup⟩⟩

/-- A notification of one thread: the sleeper it takes, or nobody when nobody
sleeps. -/
def CondVar.notifyOne (c : CondVar T) : Option T → Option (CondVar T)
  | none => if c.asleep = [] then some c else none
  | some t =>
    if h : t ∈ c.asleep then
      some ⟨c.asleep.erase t,t :: c.notified,by
        refine List.Perm.nodup ?_ c.nodup
        exact ((List.perm_cons_erase h).append_right _).trans List.perm_middle.symm⟩
    else none

/-- A notification of all threads. -/
def CondVar.notifyAll (c : CondVar T) : CondVar T := ⟨[],c.asleep ++ c.notified,c.nodup⟩

/-- A sleeper wakes up without a notification. -/
def CondVar.wake (c : CondVar T) (t : T) : CondVar T :=
  ⟨c.asleep.erase t,c.notified,List.Nodup.sublist (List.erase_sublist.append_right _) c.nodup⟩

/-- A thread has got the mutex back and runs on. -/
def CondVar.resume (c : CondVar T) (t : T) : CondVar T :=
  ⟨c.asleep,c.notified.erase t,List.Nodup.sublist (List.erase_sublist.append_left _) c.nodup⟩

variable {c c' : CondVar T} {t u : T}

omit [DecidableEq T] in
@[simp] theorem CondVar.new_asleep : (CondVar.new T).asleep = [] := rfl

omit [DecidableEq T] in
@[simp] theorem CondVar.new_notified : (CondVar.new T).notified = [] := rfl

omit [DecidableEq T] in
@[simp] theorem CondVar.notifyAll_asleep : c.notifyAll.asleep = [] := rfl

omit [DecidableEq T] in
@[simp] theorem CondVar.notifyAll_notified :
    c.notifyAll.notified = c.asleep ++ c.notified := rfl

@[simp] theorem CondVar.resume_asleep : (c.resume t).asleep = c.asleep := rfl

@[simp] theorem CondVar.wake_notified : (c.wake t).notified = c.notified := rfl

/-- A wait takes no notification away. -/
theorem CondVar.wait_notified : (c.wait t).notified = c.notified := by
  rw [CondVar.wait]
  split <;> rfl

theorem CondVar.mem_wait_asleep : u ∈ (c.wait t).asleep → u = t ∨ u ∈ c.asleep := by
  rw [CondVar.wait]
  split
  · exact Or.inr
  · exact List.mem_cons.mp

/-- What a notification of one thread does: it takes a sleeper, if there is one. -/
theorem CondVar.notifyOne_cases {choice : Option T} (h : c.notifyOne choice = some c') :
    (choice = none ∧ c.asleep = [] ∧ c' = c) ∨
      ∃ t, choice = some t ∧ t ∈ c.asleep ∧ c'.asleep = c.asleep.erase t ∧
        c'.notified = t :: c.notified := by
  cases choice with
  | none =>
    simp only [CondVar.notifyOne] at h
    split at h
    next hempty => exact Or.inl ⟨rfl,hempty,(Option.some.inj h).symm⟩
    next => cases h
  | some t =>
    simp only [CondVar.notifyOne] at h
    split at h
    next hmem =>
      cases h
      exact Or.inr ⟨t,rfl,hmem,rfl,rfl⟩
    next => cases h

/-- The threads inside wait stay inside under a notification of one. -/
theorem CondVar.notifyOne_mem {choice : Option T} (h : c.notifyOne choice = some c') :
    u ∈ c'.asleep ++ c'.notified ↔ u ∈ c.asleep ++ c.notified := by
  rcases CondVar.notifyOne_cases h with ⟨-,-,rfl⟩ | ⟨t,-,hmem,hasleep,hnotified⟩
  · rfl
  · rw [hasleep,hnotified,List.mem_append,List.mem_append,List.mem_cons]
    rcases eq_or_ne u t with rfl | hne
    · simp [hmem]
    · rw [List.mem_erase_of_ne hne]
      tauto

end ConcurrencyRuntime.ConditionVariable
