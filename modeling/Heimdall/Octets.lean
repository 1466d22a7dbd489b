/-
Octet strings over ideal primitives, and what an attacker can make of the ones it has seen.

An octet is either a concrete byte or the `i`-th output byte of a primitive `f` applied to
octet strings. Code that moves, slices, compares and measures byte strings runs on such
octets unchanged, while two outputs are equal only when they come from the same primitive
on the same inputs: injectivity and freedom from collisions are properties of the type, not
assumptions a byte-level hash could never satisfy.

The signature `F` of primitives is a parameter. An `Attacker` says which primitives it may
apply and which outputs it may take apart given a key; `Known` is the closure of what it has
observed under those rules. `Known.sound` is the one proof rule: a property that holds of
everything observed and is closed under the attacker's rules holds of everything it knows.
-/
import Mathlib.Tactic
import Mathlib.Data.List.Basic

set_option autoImplicit false

namespace Heimdall.Octets

variable {F : Type}

/-- A byte of a message: concrete, or the `i`-th byte a primitive returned. -/
inductive Octet (F : Type) where
  | lit (b : UInt8)
  | out (f : F) (args : List (List (Octet F))) (i : ℕ)

abbrev Bytes (F : Type) := List (Octet F)

/-! ## Decidable equality -/

section DecEq

variable [DecidableEq F]

mutual
def Octet.decEq : (a b : Octet F) → Decidable (a = b)
  | .lit a, .lit b => decidable_of_iff (a = b) (by simp)
  | .lit _, .out .. => isFalse (by simp)
  | .out .., .lit _ => isFalse (by simp)
  | .out f as i, .out g bs j =>
    match decEqArgs as bs with
    | isTrue h => decidable_of_iff (f = g ∧ i = j) (by simp [h])
    | isFalse h => isFalse (by simp [h])

def decEqArgs : (as bs : List (Bytes F)) → Decidable (as = bs)
  | [], [] => isTrue rfl
  | [], _ :: _ => isFalse (by simp)
  | _ :: _, [] => isFalse (by simp)
  | a :: as, b :: bs =>
    match decEqBytes a b, decEqArgs as bs with
    | isTrue h, isTrue h' => isTrue (by rw [h, h'])
    | isFalse h, _ => isFalse (by simp [h])
    | _, isFalse h => isFalse (by simp [h])

def decEqBytes : (a b : Bytes F) → Decidable (a = b)
  | [], [] => isTrue rfl
  | [], _ :: _ => isFalse (by simp)
  | _ :: _, [] => isFalse (by simp)
  | x :: a, y :: b =>
    match Octet.decEq x y, decEqBytes a b with
    | isTrue h, isTrue h' => isTrue (by rw [h, h'])
    | isFalse h, _ => isFalse (by simp [h])
    | _, isFalse h => isFalse (by simp [h])
end

instance : DecidableEq (Octet F) := Octet.decEq

end DecEq

/-! ## Concrete bytes and primitive outputs -/

def lits (bs : List UInt8) : Bytes F := bs.map .lit

def Octet.val? : Octet F → Option UInt8
  | .lit b => some b
  | .out .. => none

/-- The concrete byte string behind a list of octets, when every octet has a value. -/
def vals? : Bytes F → Option (List UInt8)
  | [] => some []
  | o :: os => (o.val?).bind fun b => (vals? os).map (b :: ·)

def block (f : F) (args : List (Bytes F)) (n : ℕ) : Bytes F :=
  (List.range n).map (Octet.out f args)

@[simp] theorem length_lits (bs : List UInt8) : (lits bs : Bytes F).length = bs.length :=
  List.length_map _

@[simp] theorem lits_nil : (lits [] : Bytes F) = [] := rfl

@[simp] theorem lits_cons (b : UInt8) (bs : List UInt8) :
    (lits (b :: bs) : Bytes F) = .lit b :: lits bs := rfl

theorem lits_inj {as bs : List UInt8} : (lits as : Bytes F) = lits bs ↔ as = bs :=
  List.map_inj_right fun _ _ h => Octet.lit.inj h

theorem vals?_lits (bs : List UInt8) : vals? (lits bs : Bytes F) = some bs := by
  induction bs with
  | nil => rfl
  | cons b bs ih => simp [vals?, Octet.val?, ih]

theorem vals?_eq_some {os : Bytes F} {bs : List UInt8} : vals? os = some bs ↔ os = lits bs := by
  constructor
  · intro h
    induction os generalizing bs with
    | nil => simp only [vals?, Option.some.injEq] at h; subst h; rfl
    | cons o os ih =>
      cases o with
      | lit b =>
        simp only [vals?, Octet.val?, Option.bind_some, Option.map_eq_some_iff] at h
        obtain ⟨cs, hcs, rfl⟩ := h
        rw [lits_cons, ← ih hcs]
      | out f args i => simp [vals?, Octet.val?] at h
  · rintro rfl
    exact vals?_lits bs

@[simp] theorem length_block (f : F) (args : List (Bytes F)) (n : ℕ) :
    (block f args n).length = n := by simp [block]

theorem mem_block {f : F} {args : List (Bytes F)} {n : ℕ} {o : Octet F} :
    o ∈ block f args n ↔ ∃ i < n, o = .out f args i := by
  simp only [block, List.mem_map, List.mem_range, eq_comm]

theorem out_mem_block {f g : F} {as bs : List (Bytes F)} {i n : ℕ} :
    .out f as i ∈ block g bs n ↔ f = g ∧ as = bs ∧ i < n := by
  rw [mem_block]
  constructor
  · rintro ⟨k, hk, heq⟩
    obtain ⟨rfl, rfl, rfl⟩ := Octet.out.inj heq
    exact ⟨rfl, rfl, hk⟩
  · rintro ⟨rfl, rfl, hi⟩
    exact ⟨i, hi, rfl⟩

theorem out_notMem_lits {f : F} {as : List (Bytes F)} {i : ℕ} (bs : List UInt8) :
    .out f as i ∉ (lits bs : Bytes F) := by
  intro h
  obtain ⟨b, -, hb⟩ := List.mem_map.mp h
  cases hb

theorem block_succ (f : F) (args : List (Bytes F)) (n : ℕ) :
    block f args (n + 1) = .out f args 0 :: (List.range n).map fun i => .out f args (i + 1) := by
  rw [block, List.range_succ_eq_map, List.map_cons, List.map_map]
  rfl

/-- **No collisions.** A non-empty output determines the primitive, its inputs and its length.
This is the idealisation: a hash is its inputs, and a key is what it was derived from. -/
theorem block_inj {f g : F} {as bs : List (Bytes F)} {m n : ℕ} (hm : 0 < m)
    (h : block f as m = block g bs n) : f = g ∧ as = bs ∧ m = n := by
  have hlen : m = n := by simpa using congrArg List.length h
  obtain ⟨k, rfl⟩ : ∃ k, m = k + 1 := ⟨m - 1, by omega⟩
  subst hlen
  rw [block_succ, block_succ, List.cons.injEq, Octet.out.injEq] at h
  exact ⟨h.1.1, h.1.2.1, rfl⟩

theorem block_ne_lits {f : F} {as : List (Bytes F)} {m : ℕ} {bs : List UInt8} (hm : 0 < m) :
    block f as m ≠ lits bs := by
  intro h
  obtain ⟨k, rfl⟩ : ∃ k, m = k + 1 := ⟨m - 1, by omega⟩
  rw [block_succ] at h
  cases bs with
  | nil => simp at h
  | cons b bs => simp at h

/-! ## Attackers

An attacker sees octets and computes others. What it can compute is a closure, and a property that
survives each of its moves holds of everything it will ever know (`Known.sound`). -/

/-- What an attacker may do: which primitives it can apply to strings it knows, and which
outputs it can take apart (`extract f args key plain`: the output of `f` on `args` yields
`plain` to whoever has `key`). -/
structure Attacker (F : Type) where
  apply : F → List (Bytes F) → Prop
  extract : F → List (Bytes F) → Bytes F → Bytes F → Prop

/-- The octets an attacker can compute from the observed set `S`. -/
inductive Known (T : Attacker F) (S : Octet F → Prop) : Octet F → Prop
  | seen {o : Octet F} : S o → Known T S o
  | lit (b : UInt8) : Known T S (.lit b)
  | apply {f : F} {args : List (Bytes F)} (i : ℕ) :
      T.apply f args → (∀ a ∈ args, ∀ o ∈ a, Known T S o) → Known T S (.out f args i)
  | extract {f : F} {args : List (Bytes F)} {i : ℕ} {key plain : Bytes F} {o : Octet F} :
      T.extract f args key plain → Known T S (.out f args i) →
      (∀ k ∈ key, Known T S k) → o ∈ plain → Known T S o

/-- An attacker knows a string when it knows each of its octets. -/
def KnownAll (T : Attacker F) (S : Octet F → Prop) (bs : Bytes F) : Prop :=
  ∀ o ∈ bs, Known T S o

section Closure

variable {T : Attacker F} {S P : Octet F → Prop}

/-- **The soundness rule.** A property of concrete bytes and of everything observed, closed
under what the attacker can apply and extract, holds of everything it knows. -/
theorem Known.sound (hseen : ∀ o, S o → P o) (hlit : ∀ b, P (.lit b))
    (happly : ∀ f args i, T.apply f args → (∀ a ∈ args, ∀ o ∈ a, P o) → P (.out f args i))
    (hextract : ∀ f args i key plain, T.extract f args key plain → P (.out f args i) →
      (∀ k ∈ key, P k) → ∀ o ∈ plain, P o)
    {o : Octet F} (h : Known T S o) : P o := by
  induction h with
  | seen ho => exact hseen _ ho
  | lit b => exact hlit b
  | apply i hT _ ih => exact happly _ _ i hT ih
  | extract hT _ _ ho ih ihk => exact hextract _ _ _ _ _ hT ih ihk _ ho

theorem KnownAll.seen {bs : Bytes F} (h : ∀ o ∈ bs, S o) : KnownAll T S bs :=
  fun o ho => .seen (h o ho)

@[simp] theorem KnownAll.nil : KnownAll T S [] := fun _ ho => absurd ho List.not_mem_nil

@[simp] theorem KnownAll.cons {o : Octet F} {bs : Bytes F} :
    KnownAll T S (o :: bs) ↔ Known T S o ∧ KnownAll T S bs := List.forall_mem_cons

@[simp] theorem KnownAll.append {as bs : Bytes F} :
    KnownAll T S (as ++ bs) ↔ KnownAll T S as ∧ KnownAll T S bs := List.forall_mem_append

theorem KnownAll.lits (bs : List UInt8) : KnownAll T S (lits bs) := by
  intro o ho
  obtain ⟨b, -, rfl⟩ := List.mem_map.mp ho
  exact .lit b

theorem KnownAll.block {f : F} {args : List (Bytes F)} (n : ℕ) (hT : T.apply f args)
    (hargs : ∀ a ∈ args, KnownAll T S a) : KnownAll T S (block f args n) := by
  intro o ho
  obtain ⟨i, -, rfl⟩ := mem_block.mp ho
  exact .apply i hT hargs

end Closure

end Heimdall.Octets
