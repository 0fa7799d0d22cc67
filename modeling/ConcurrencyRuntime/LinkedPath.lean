import Mathlib

/-!
# Null-terminated paths through a heap of next pointers

A heap maps each address to the address its next field holds, none being the
null pointer. A path lists the addresses met by following next from a first
node until null. The heap alone determines the path, so a path never visits
an address twice, and writes outside it leave it alone.
-/

namespace ConcurrencyRuntime.LinkedPath

variable {N : Type*}

/-- Following next from the node visits the listed addresses, then null. -/
def Path (next : N → Option N) : N → List N → Prop
  | n, [] => next n = none
  | n, m :: rest => next n = some m ∧ Path next m rest

variable {next : N → Option N} {h n m : N} {rest : List N}

/-- The heap determines the path. -/
theorem path_unique {rest' : List N} (hp : Path next h rest) (hq : Path next h rest') :
    rest = rest' := by
  induction rest generalizing h rest' with
  | nil =>
    cases rest' with
    | nil => rfl
    | cons m tail =>
      have he := hp.symm.trans hq.1
      cases he
  | cons k rest ih =>
    cases rest' with
    | nil =>
      have he := hq.symm.trans hp.1
      cases he
    | cons m tail =>
      have he := hp.1.symm.trans hq.1
      cases he
      rw [ih hp.2 hq.2]

/-- Every later node of a path starts a shorter path. -/
theorem path_suffix (hp : Path next h rest) (hn : n ∈ rest) :
    ∃ front back, rest = front ++ n :: back ∧ Path next n back := by
  induction rest generalizing h with
  | nil => cases hn
  | cons k rest ih =>
    rcases List.mem_cons.mp hn with rfl | hmem
    · exact ⟨[],rest,rfl,hp.2⟩
    · obtain ⟨front,back,he,hb⟩ := ih hp.2 hmem
      exact ⟨k :: front,back,by rw [he,List.cons_append],hb⟩

/-- A null-terminated path never returns to an address. -/
theorem path_nodup (hp : Path next h rest) : (h :: rest).Nodup := by
  induction rest generalizing h with
  | nil => exact List.nodup_singleton h
  | cons k rest ih =>
    refine List.nodup_cons.mpr ⟨?_,ih hp.2⟩
    intro hmem
    obtain ⟨front,back,he,hb⟩ := path_suffix hp hmem
    have hlen := congrArg List.length (he.symm.trans (path_unique hp hb))
    simp only [List.length_append,List.length_cons] at hlen
    omega

/-- The successor of a node of the path is one of its later nodes. -/
theorem path_succ_mem (hp : Path next h rest) (hn : n ∈ h :: rest) (hm : next n = some m) :
    m ∈ rest := by
  induction rest generalizing h with
  | nil =>
    rcases List.mem_singleton.mp hn with rfl
    have he := hp.symm.trans hm
    cases he
  | cons k rest ih =>
    rcases List.mem_cons.mp hn with rfl | hmem
    · have he := hp.1.symm.trans hm
      cases he
      exact List.mem_cons_self
    · exact List.mem_cons_of_mem _ (ih hp.2 hmem)

/-- Only the last node of a path has a null next. -/
theorem path_last (hp : Path next h rest) (hn : n ∈ h :: rest) (hm : next n = none) :
    ∃ front, h :: rest = front ++ [n] := by
  induction rest generalizing h with
  | nil =>
    rcases List.mem_singleton.mp hn with rfl
    exact ⟨[],rfl⟩
  | cons k rest ih =>
    rcases List.mem_cons.mp hn with rfl | hmem
    · have he := hp.1.symm.trans hm
      cases he
    · obtain ⟨front,he⟩ := ih hp.2 hmem
      exact ⟨h :: front,by rw [he,List.cons_append]⟩

/-- A heap that agrees on the nodes of a path has the same path. -/
theorem path_congr {next' : N → Option N} (hp : Path next h rest)
    (hsame : ∀ n ∈ h :: rest, next' n = next n) : Path next' h rest := by
  induction rest generalizing h with
  | nil => exact (hsame h List.mem_cons_self).trans hp
  | cons k rest ih =>
    refine ⟨(hsame h List.mem_cons_self).trans hp.1,ih hp.2 ?_⟩
    exact fun n hn => hsame n (List.mem_cons_of_mem _ hn)

/-- Following next from a pointer visits the listed addresses, then null. -/
def Chain (next : N → Option N) : Option N → List N → Prop
  | p, [] => p = none
  | p, n :: rest => p = some n ∧ Chain next (next n) rest

/-- A chain is a pointer to the first node of a path. -/
theorem chain_next_iff : Chain next (next n) rest ↔ Path next n rest := by
  induction rest generalizing n with
  | nil => rfl
  | cons m rest ih => exact and_congr_right fun _ => ih

/-- A chain never returns to an address. -/
theorem chain_nodup {p : Option N} {ns : List N} (hc : Chain next p ns) : ns.Nodup := by
  cases ns with
  | nil => exact List.nodup_nil
  | cons n rest => exact path_nodup (chain_next_iff.mp hc.2)

/-- The heap determines the chain. -/
theorem chain_unique {p : Option N} {ns ns' : List N} (hc : Chain next p ns)
    (hc' : Chain next p ns') : ns = ns' := by
  cases ns with
  | nil =>
    cases ns' with
    | nil => rfl
    | cons n rest => cases hc.symm.trans hc'.1
  | cons n rest =>
    cases ns' with
    | nil => cases hc'.symm.trans hc.1
    | cons m rest' =>
      cases hc.1.symm.trans hc'.1
      rw [path_unique (chain_next_iff.mp hc.2) (chain_next_iff.mp hc'.2)]

/-- A heap that agrees on the nodes of a chain has the same chain. -/
theorem chain_congr {next' : N → Option N} {p : Option N} {ns : List N} (hc : Chain next p ns)
    (hsame : ∀ n ∈ ns, next' n = next n) : Chain next' p ns := by
  cases ns with
  | nil => exact hc
  | cons n rest =>
    refine ⟨hc.1,?_⟩
    rw [hsame n List.mem_cons_self]
    have hrest : Chain next' (next' n) rest :=
      chain_next_iff.mpr (path_congr (chain_next_iff.mp hc.2) hsame)
    rwa [hsame n List.mem_cons_self] at hrest

variable [DecidableEq N]

/-- Writing the next field of an address outside the chain keeps the chain. -/
theorem chain_frame {p : Option N} {ns : List N} (hc : Chain next p ns) (hn : n ∉ ns)
    (x : Option N) : Chain (Function.update next n x) p ns := by
  refine chain_congr hc fun m hm => Function.update_of_ne ?_ ..
  rintro rfl
  exact hn hm

/-- Writing the next field of an address outside the path keeps the path. -/
theorem path_frame (hp : Path next h rest) (hn : n ∉ h :: rest) (x : Option N) :
    Path (Function.update next n x) h rest := by
  refine path_congr hp fun m hm => Function.update_of_ne ?_ ..
  rintro rfl
  exact hn hm

/-- Linking a fresh node behind the last one appends it to the path. -/
theorem path_snoc (hp : Path next h rest) (hn : n ∈ h :: rest) (hnull : next n = none)
    (hm : m ∉ h :: rest) (hmnull : next m = none) :
    Path (Function.update next n (some m)) h (rest ++ [m]) := by
  induction rest generalizing h with
  | nil =>
    rcases List.mem_singleton.mp hn with rfl
    have hne : m ≠ n := fun he => hm (by simp [he])
    refine ⟨Function.update_self ..,?_⟩
    rwa [Path,Function.update_of_ne hne]
  | cons k rest ih =>
    have hnh : h ≠ n := by
      rintro rfl
      have he := hp.1.symm.trans hnull
      cases he
    have hmem : n ∈ k :: rest := by
      rcases List.mem_cons.mp hn with rfl | hmem
      · exact absurd rfl hnh
      · exact hmem
    refine ⟨?_,ih hp.2 hmem fun hk => hm (List.mem_cons_of_mem _ hk)⟩
    rw [Function.update_of_ne hnh]
    exact hp.1

end ConcurrencyRuntime.LinkedPath
