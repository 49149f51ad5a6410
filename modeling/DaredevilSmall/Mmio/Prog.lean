/-!
# Programs over memory-mapped registers

A driver reaches its peripheral through registers only. This module models such
a driver as a resumption `Prog`: a tree of register reads, register writes and
busy-waits, ending in a value or in a panic. What the peripheral does is a
separate parameter, a `Hw`, so that one program can be run against several
models of the hardware.

* `exec` runs a program on hardware that moves only when a register of it is
  accessed, and `trace` lists the accesses of that run.
* `exec_bind` says how runs compose.
* `Prog.Within` confines a program to some of the registers.
* `Hw.prod` puts two peripherals on one bus; `exec_onLeft` and `exec_onRight`
  say that a driver of one leaves the other alone.
-/

namespace Mmio

/-- What a register holds. -/
abbrev Word := BitVec 32

/-- Why a program stops without a value. -/
inductive Panic where
  | assertion (msg : String)
  | explicit (msg : String)
  | unimplemented
  | unreachable
  | index
  | unwrap
  deriving DecidableEq, Repr

/-- A program over the registers `Reg`. The `site` of an access names the
function of the source that makes it. It reaches the access log and nothing
else. `poll site r busy k` is the loop `while busy(r.read()) {}` followed by
`k`. -/
inductive Prog (Reg Site α : Type) where
  | done (a : α)
  | panic (p : Panic)
  | read (site : Site) (r : Reg) (k : Word → Prog Reg Site α)
  | write (site : Site) (r : Reg) (v : Word) (k : Prog Reg Site α)
  | poll (site : Site) (r : Reg) (busy : Word → Bool) (k : Prog Reg Site α)

/-- A peripheral. Reading a register may change its state. `patience r s` is
how many more reads of `r` may come back with a flag that is still about to
change: a busy-wait that outlasts it waits forever. -/
structure Hw (Reg σ : Type) where
  read : Reg → σ → Word × σ
  write : Reg → Word → σ → σ
  patience : Reg → σ → Nat

/-- How a run ends. -/
inductive Outcome (α : Type) where
  | done (a : α)
  | panicked (p : Panic)
  | hung
  deriving DecidableEq, Repr

/-- One register access, as it stands in the access log. -/
inductive Event (Reg Site : Type) where
  | read (site : Site) (r : Reg) (v : Word)
  | write (site : Site) (r : Reg) (v : Word)
  deriving DecidableEq, Repr

variable {Reg Site σ α β : Type}

/-! ## The monad of programs -/

namespace Prog

def bind : Prog Reg Site α → (α → Prog Reg Site β) → Prog Reg Site β
  | done a, f => f a
  | panic p, _ => panic p
  | read site r k, f => read site r fun v => (k v).bind f
  | write site r v k, f => write site r v (k.bind f)
  | poll site r busy k, f => poll site r busy (k.bind f)

instance : Monad (Prog Reg Site) where
  pure := done
  bind := bind

@[simp] theorem pure_eq (a : α) : (pure a : Prog Reg Site α) = done a := rfl

@[simp] theorem done_bind (a : α) (f : α → Prog Reg Site β) : (done a >>= f) = f a := rfl

@[simp] theorem read_bind (site : Site) (r : Reg) (k : Word → Prog Reg Site α)
    (f : α → Prog Reg Site β) : (read site r k >>= f) = read site r fun v => k v >>= f := rfl

@[simp] theorem write_bind (site : Site) (r : Reg) (v : Word) (k : Prog Reg Site α)
    (f : α → Prog Reg Site β) : (write site r v k >>= f) = write site r v (k >>= f) := rfl

@[simp] theorem poll_bind (site : Site) (r : Reg) (busy : Word → Bool) (k : Prog Reg Site α)
    (f : α → Prog Reg Site β) : (poll site r busy k >>= f) = poll site r busy (k >>= f) := rfl

end Prog

/-- The access `r.read()`. -/
def readReg (site : Site) (r : Reg) : Prog Reg Site Word :=
  .read site r .done

/-- The access `r.write(|w| w.bits(v))`. -/
def writeReg (site : Site) (r : Reg) (v : Word) : Prog Reg Site Unit :=
  .write site r v (.done ())

/-- The access `r.modify(|_, w| ..)`: a read and then a write. -/
def modifyReg (site : Site) (r : Reg) (f : Word → Word) : Prog Reg Site Unit :=
  .read site r fun v => .write site r (f v) (.done ())

/-- The loop `while busy(r.read()) {}`. -/
def pollReg (site : Site) (r : Reg) (busy : Word → Bool) : Prog Reg Site Unit :=
  .poll site r busy (.done ())

/-- `assert!(c, msg)`. -/
def assert (c : Bool) (msg : String) : Prog Reg Site Unit :=
  if c then .done () else .panic (.assertion msg)

/-- The bounds check of the slices `buf[..n]` and `buf[n..]` for a `buf` of
length `len`. -/
def checkSlice (n len : Nat) : Prog Reg Site Unit :=
  if n ≤ len then .done () else .panic .index

/-- The loop `for i in 0..n { b = body(i, b) }`. -/
def forRange (n : Nat) (body : Nat → β → Prog Reg Site β) (b : β) : Prog Reg Site β :=
  match n with
  | 0 => .done b
  | n + 1 => forRange n body b >>= body n

/-- A loop whose body accesses no register. -/
theorem forRange_done {n : Nat} {body : Nat → β → Prog Reg Site β} (g : Nat → β)
    (h : ∀ i < n, body i (g i) = .done (g (i + 1))) : forRange n body (g 0) = .done (g n) := by
  induction n with
  | zero => rfl
  | succ n ih =>
    rw [forRange, ih fun i hi => h i (Nat.lt_succ_of_lt hi), Prog.done_bind]
    exact h n (Nat.lt_succ_self n)

/-! ## Running a program -/

/-- Sequencing of run results: what follows a panic or a hang does not run. -/
def andThen : Outcome α × σ → (α → σ → Outcome β × σ) → Outcome β × σ
  | (.done a, s), f => f a s
  | (.panicked p, s), _ => (.panicked p, s)
  | (.hung, s), _ => (.hung, s)

namespace Hw

variable (hw : Hw Reg σ)

/-- At most `n` rounds of `while busy(r.read()) {}`: whether the loop ended, and
the state after it. -/
def spin (r : Reg) (busy : Word → Bool) : Nat → σ → Bool × σ
  | 0, s => (false, s)
  | n + 1, s =>
    if busy (hw.read r s).1 then spin r busy n (hw.read r s).2 else (true, (hw.read r s).2)

/-- The values the rounds of `spin` read. -/
def spinReads (r : Reg) (busy : Word → Bool) : Nat → σ → List Word
  | 0, _ => []
  | n + 1, s =>
    (hw.read r s).1 ::
      if busy (hw.read r s).1 then spinReads r busy n (hw.read r s).2 else []

theorem spin_busy {r : Reg} {busy : Word → Bool} {n : Nat} {s : σ}
    (h : busy (hw.read r s).1 = true) :
    hw.spin r busy (n + 1) s = hw.spin r busy n (hw.read r s).2 := by
  rw [spin, if_pos h]

theorem spin_ready {r : Reg} {busy : Word → Bool} {n : Nat} {s : σ}
    (h : busy (hw.read r s).1 = false) :
    hw.spin r busy (n + 1) s = (true, (hw.read r s).2) := by
  rw [spin, if_neg (by simp [h])]

end Hw

/-- Run a program to its end on hardware that moves only when it is accessed. -/
def exec (hw : Hw Reg σ) : Prog Reg Site α → σ → Outcome α × σ
  | .done a, s => (.done a, s)
  | .panic p, s => (.panicked p, s)
  | .read _ r k, s => exec hw (k (hw.read r s).1) (hw.read r s).2
  | .write _ r v k, s => exec hw k (hw.write r v s)
  | .poll _ r busy k, s =>
    match hw.spin r busy (hw.patience r s + 1) s with
    | (true, s') => exec hw k s'
    | (false, s') => (.hung, s')

/-- The accesses of the run of `exec`, in order. -/
def trace (hw : Hw Reg σ) : Prog Reg Site α → σ → List (Event Reg Site)
  | .done _, _ => []
  | .panic _, _ => []
  | .read site r k, s =>
    .read site r (hw.read r s).1 :: trace hw (k (hw.read r s).1) (hw.read r s).2
  | .write site r v k, s => .write site r v :: trace hw k (hw.write r v s)
  | .poll site r busy k, s =>
    (hw.spinReads r busy (hw.patience r s + 1) s).map (.read site r) ++
      match hw.spin r busy (hw.patience r s + 1) s with
      | (true, s') => trace hw k s'
      | (false, _) => []

variable (hw : Hw Reg σ)

@[simp] theorem andThen_done (a : α) (s : σ) (f : α → σ → Outcome β × σ) :
    andThen (.done a, s) f = f a s := rfl

@[simp] theorem andThen_panicked (p : Panic) (s : σ) (f : α → σ → Outcome β × σ) :
    andThen (.panicked p, s) f = (.panicked p, s) := rfl

@[simp] theorem exec_done (a : α) (s : σ) :
    exec hw (.done a : Prog Reg Site α) s = (.done a, s) := rfl

@[simp] theorem exec_readReg (site : Site) (r : Reg) (s : σ) :
    exec hw (readReg site r) s = (.done (hw.read r s).1, (hw.read r s).2) := rfl

@[simp] theorem exec_writeReg (site : Site) (r : Reg) (v : Word) (s : σ) :
    exec hw (writeReg site r v) s = (.done (), hw.write r v s) := rfl

theorem exec_checkSlice {n len : Nat} (h : n ≤ len) (s : σ) :
    exec hw (checkSlice n len : Prog Reg Site Unit) s = (.done (), s) := by
  rw [checkSlice, if_pos h]
  rfl

theorem exec_assert {c : Bool} (h : c = true) (msg : String) (s : σ) :
    exec hw (assert c msg : Prog Reg Site Unit) s = (.done (), s) := by
  rw [assert, if_pos h]
  rfl

theorem exec_bind (p : Prog Reg Site α) (f : α → Prog Reg Site β) (s : σ) :
    exec hw (p >>= f) s = andThen (exec hw p s) fun a s' => exec hw (f a) s' := by
  induction p generalizing s with
  | done a => rfl
  | panic p => rfl
  | read site r k ih => exact ih _ _
  | write site r v k ih => exact ih _
  | poll site r busy k ih =>
    simp only [Prog.poll_bind, exec]
    cases hw.spin r busy (hw.patience r s + 1) s with
    | mk ended s' =>
      cases ended with
      | true => exact ih s'
      | false => rfl

/-- The form of `exec_bind` that walks through a driver. -/
theorem exec_bind_of {p : Prog Reg Site α} {f : α → Prog Reg Site β} {s s' : σ} {a : α}
    (h : exec hw p s = (.done a, s')) : exec hw (p >>= f) s = exec hw (f a) s' := by
  rw [exec_bind, h, andThen_done]

theorem exec_eq_done {p : Prog Reg Site α} {s : σ} {a : α} (h : (exec hw p s).1 = .done a) :
    exec hw p s = (.done a, (exec hw p s).2) := Prod.ext h rfl

/-- The form of `exec_bind` that takes a run apart. -/
theorem exec_bind_done {p : Prog Reg Site α} {f : α → Prog Reg Site β} {s s' : σ} {b : β}
    (h : exec hw (p >>= f) s = (.done b, s')) :
    ∃ a s₁, exec hw p s = (.done a, s₁) ∧ exec hw (f a) s₁ = (.done b, s') := by
  rw [exec_bind] at h
  cases hres : exec hw p s with
  | mk outcome s₁ =>
    rw [hres] at h
    cases outcome with
    | done a => exact ⟨a, s₁, rfl, h⟩
    | panicked p => cases h
    | hung => cases h

/-! ## Programs confined to some registers -/

/-- The program accesses registers of `ok` only. -/
def Prog.Within (ok : Reg → Prop) : Prog Reg Site α → Prop
  | done _ => True
  | panic _ => True
  | read _ r k => ok r ∧ ∀ v, (k v).Within ok
  | write _ r _ k => ok r ∧ k.Within ok
  | poll _ r _ k => ok r ∧ k.Within ok

theorem Prog.Within.bind {ok : Reg → Prop} {p : Prog Reg Site α} {f : α → Prog Reg Site β}
    (h : p.Within ok) (hf : ∀ a, (f a).Within ok) : (p >>= f).Within ok := by
  induction p with
  | done a => exact hf a
  | panic p => trivial
  | read site r k ih => exact ⟨h.1, fun v => ih v (h.2 v)⟩
  | write site r v k ih => exact ⟨h.1, ih h.2⟩
  | poll site r busy k ih => exact ⟨h.1, ih h.2⟩

theorem within_forRange {ok : Reg → Prop} {n : Nat} {body : Nat → β → Prog Reg Site β} {b : β}
    (h : ∀ i < n, ∀ b, (body i b).Within ok) : (forRange n body b).Within ok := by
  induction n with
  | zero => trivial
  | succ n ih =>
    exact (ih fun i hi => h i (Nat.lt_succ_of_lt hi)).bind (h n (Nat.lt_succ_self n))

/-! ## Two peripherals on one bus -/

variable {Reg₁ Reg₂ Site₁ σ₁ σ₂ : Type}

/-- Two peripherals that do not notice each other. -/
def Hw.prod (hw₁ : Hw Reg₁ σ₁) (hw₂ : Hw Reg₂ σ₂) : Hw (Reg₁ ⊕ Reg₂) (σ₁ × σ₂) where
  read
    | .inl r, s => ((hw₁.read r s.1).1, (hw₁.read r s.1).2, s.2)
    | .inr r, s => ((hw₂.read r s.2).1, s.1, (hw₂.read r s.2).2)
  write
    | .inl r, v, s => (hw₁.write r v s.1, s.2)
    | .inr r, v, s => (s.1, hw₂.write r v s.2)
  patience
    | .inl r, s => hw₁.patience r s.1
    | .inr r, s => hw₂.patience r s.2

/-- A driver on a bus with more registers, in a program with more functions. -/
def Prog.embed (g : Reg₁ → Reg) (f : Site₁ → Site) : Prog Reg₁ Site₁ α → Prog Reg Site α
  | done a => done a
  | panic p => panic p
  | read site r k => read (f site) (g r) fun v => (k v).embed g f
  | write site r v k => write (f site) (g r) v (k.embed g f)
  | poll site r busy k => poll (f site) (g r) busy (k.embed g f)

theorem Prog.embed_bind (g : Reg₁ → Reg) (f : Site₁ → Site) (p : Prog Reg₁ Site₁ α)
    (k : α → Prog Reg₁ Site₁ β) :
    (p >>= k).embed g f = p.embed g f >>= fun a => (k a).embed g f := by
  induction p with
  | done a => rfl
  | panic p => rfl
  | read site r k ih => exact congrArg (Prog.read _ _) (funext ih)
  | write site r v k ih => exact congrArg (Prog.write _ _ _) ih
  | poll site r busy k ih => exact congrArg (Prog.poll _ _ _) ih

/-- Under other names of its functions a program runs as before. -/
theorem exec_rename (hw : Hw Reg σ) (f : Site₁ → Site) (p : Prog Reg Site₁ α) (s : σ) :
    exec hw (p.embed id f) s = exec hw p s := by
  induction p generalizing s with
  | done a => rfl
  | panic p => rfl
  | read site r k ih => exact ih _ _
  | write site r v k ih => exact ih _
  | poll site r busy k ih =>
    simp only [Prog.embed, exec, id]
    cases hw.spin r busy (hw.patience r s + 1) s with
    | mk ended s' =>
      cases ended with
      | true => exact ih s'
      | false => rfl

namespace ProgLemmas

theorem spin_inl (hw₁ : Hw Reg₁ σ₁) (hw₂ : Hw Reg₂ σ₂) (r : Reg₁) (busy : Word → Bool) (n : Nat)
    (s₁ : σ₁) (s₂ : σ₂) :
    (hw₁.prod hw₂).spin (.inl r) busy n (s₁, s₂) =
      ((hw₁.spin r busy n s₁).1, (hw₁.spin r busy n s₁).2, s₂) := by
  induction n generalizing s₁ with
  | zero => rfl
  | succ n ih =>
    cases hb : busy (hw₁.read r s₁).1 with
    | true =>
      rw [hw₁.spin_busy hb, (hw₁.prod hw₂).spin_busy hb]
      exact ih _
    | false =>
      rw [hw₁.spin_ready hb, (hw₁.prod hw₂).spin_ready hb]
      rfl

theorem spin_inr (hw₁ : Hw Reg₁ σ₁) (hw₂ : Hw Reg₂ σ₂) (r : Reg₂) (busy : Word → Bool) (n : Nat)
    (s₁ : σ₁) (s₂ : σ₂) :
    (hw₁.prod hw₂).spin (.inr r) busy n (s₁, s₂) =
      ((hw₂.spin r busy n s₂).1, s₁, (hw₂.spin r busy n s₂).2) := by
  induction n generalizing s₂ with
  | zero => rfl
  | succ n ih =>
    cases hb : busy (hw₂.read r s₂).1 with
    | true =>
      rw [hw₂.spin_busy hb, (hw₁.prod hw₂).spin_busy hb]
      exact ih _
    | false =>
      rw [hw₂.spin_ready hb, (hw₁.prod hw₂).spin_ready hb]
      rfl

end ProgLemmas

open ProgLemmas

/-- A driver of the first peripheral runs as it would alone and leaves the
second one untouched. -/
theorem exec_onLeft (hw₁ : Hw Reg₁ σ₁) (hw₂ : Hw Reg₂ σ₂) (f : Site₁ → Site)
    (p : Prog Reg₁ Site₁ α) (s₁ : σ₁) (s₂ : σ₂) :
    exec (hw₁.prod hw₂) (p.embed .inl f) (s₁, s₂) =
      ((exec hw₁ p s₁).1, (exec hw₁ p s₁).2, s₂) := by
  induction p generalizing s₁ with
  | done a => rfl
  | panic p => rfl
  | read site r k ih => exact ih _ _
  | write site r v k ih => exact ih _
  | poll site r busy k ih =>
    have hpat : (hw₁.prod hw₂).patience (.inl r) (s₁, s₂) = hw₁.patience r s₁ := rfl
    simp only [Prog.embed, exec, hpat, spin_inl]
    cases hw₁.spin r busy (hw₁.patience r s₁ + 1) s₁ with
    | mk ended s' =>
      cases ended with
      | true => exact ih s'
      | false => rfl

/-- A driver of the second peripheral runs as it would alone and leaves the
first one untouched. -/
theorem exec_onRight (hw₁ : Hw Reg₁ σ₁) (hw₂ : Hw Reg₂ σ₂) (f : Site₁ → Site)
    (p : Prog Reg₂ Site₁ α) (s₁ : σ₁) (s₂ : σ₂) :
    exec (hw₁.prod hw₂) (p.embed .inr f) (s₁, s₂) =
      ((exec hw₂ p s₂).1, s₁, (exec hw₂ p s₂).2) := by
  induction p generalizing s₂ with
  | done a => rfl
  | panic p => rfl
  | read site r k ih => exact ih _ _
  | write site r v k ih => exact ih _
  | poll site r busy k ih =>
    have hpat : (hw₁.prod hw₂).patience (.inr r) (s₁, s₂) = hw₂.patience r s₂ := rfl
    simp only [Prog.embed, exec, hpat, spin_inr]
    cases hw₂.spin r busy (hw₂.patience r s₂ + 1) s₂ with
    | mk ended s' =>
      cases ended with
      | true => exact ih s'
      | false => rfl

end Mmio
