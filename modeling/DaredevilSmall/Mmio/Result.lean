import DaredevilSmall.Mmio.Monitor

/-!
# Results whatever the hardware does

`Prog.Yields` says of a program what its result can be and which panics it can
end in, whatever the registers read as. It is defined on the program alone.
There is a rule for each way to put programs together:

* `Prog.Yields.bind` and `Prog.Yields.forRange`: sequencing and loops.
* `Prog.Yields.mono` and `Prog.Yields.and`: consequence and conjunction.
* `Prog.Yields.embed`: a driver in a larger program.
* `Prog.Obeys.yields`: what a monitored program yields.
* `Prog.Yields.sound`: how a run on any hardware ends.

`Prog.Keeps` is the counterpart on given hardware: from a state with the invariant, a
run ends in a value and a state with the invariant, or in one of some busy-waits. Where
a run waits is `Prog.waitsAt`.
-/

namespace Mmio

variable {Reg Site Reg₁ Site₁ S σ α β : Type}

/-- Whatever the registers read as, a run that ends does so in a value with
`post` or in a panic with `panics`. What follows a busy-wait counts only if some
value ends the wait. -/
def Prog.Yields (panics : Panic → Prop) : Prog Reg Site α → (α → Prop) → Prop
  | .done a, post => post a
  | .panic p, _ => panics p
  | .read _ _ k, post => ∀ v, (k v).Yields panics post
  | .write _ _ _ k, post => k.Yields panics post
  | .poll _ _ busy k, post => ∀ v, busy v = false → k.Yields panics post

/-- Every panic. -/
def anyPanic (_ : Panic) : Prop := True

/-- No panic. -/
def noPanic (_ : Panic) : Prop := False

namespace Prog.Yields

variable {panics panics' : Panic → Prop} {post post' : α → Prop}

theorem mono {p : Prog Reg Site α} (h : p.Yields panics post)
    (hpanics : ∀ e, panics e → panics' e) (hpost : ∀ a, post a → post' a) :
    p.Yields panics' post' := by
  induction p with
  | done a => exact hpost a h
  | panic e => exact hpanics e h
  | read site r k ih => exact fun v => ih v (h v)
  | write site r v k ih => exact ih h
  | poll site r busy k ih => exact fun v hv => ih (h v hv)

theorem and {p : Prog Reg Site α} (h : p.Yields panics post) (h' : p.Yields panics' post') :
    p.Yields (fun e => panics e ∧ panics' e) fun a => post a ∧ post' a := by
  induction p with
  | done a => exact ⟨h, h'⟩
  | panic e => exact ⟨h, h'⟩
  | read site r k ih => exact fun v => ih v (h v) (h' v)
  | write site r v k ih => exact ih h h'
  | poll site r busy k ih => exact fun v hv => ih (h v hv) (h' v hv)

theorem bind {p : Prog Reg Site α} {f : α → Prog Reg Site β} {post' : β → Prop}
    (h : p.Yields panics post) (hf : ∀ a, post a → (f a).Yields panics post') :
    (p >>= f).Yields panics post' := by
  induction p with
  | done a => exact hf a h
  | panic e => exact h
  | read site r k ih => exact fun v => ih v (h v)
  | write site r v k ih => exact ih h
  | poll site r busy k ih => exact fun v hv => ih (h v hv)

/-- A loop with an invariant. -/
theorem forRange {n : Nat} {body : Nat → β → Prog Reg Site β} {b : β} (inv : Nat → β → Prop)
    (hinit : inv 0 b) (hbody : ∀ i < n, ∀ b, inv i b → (body i b).Yields panics (inv (i + 1))) :
    (Mmio.forRange n body b).Yields panics (inv n) := by
  induction n with
  | zero => exact hinit
  | succ n ih =>
    have hrest := ih fun i hi => hbody i (Nat.lt_succ_of_lt hi)
    exact hrest.bind (hbody n (Nat.lt_succ_self n))

/-- A loop of which only the panics matter. -/
theorem forRange_true {n : Nat} {body : Nat → β → Prog Reg Site β} {b : β}
    (hbody : ∀ i < n, ∀ b, (body i b).Yields panics fun _ => True) :
    (Mmio.forRange n body b).Yields panics fun _ => True :=
  forRange (fun _ _ => True) trivial fun i hi b _ => hbody i hi b

/-- A driver on a bus with more registers. -/
theorem embed {p : Prog Reg₁ Site₁ α} (h : p.Yields panics post) (g : Reg₁ → Reg)
    (f : Site₁ → Site) : (p.embed g f).Yields panics post := by
  induction p with
  | done a => exact h
  | panic e => exact h
  | read site r k ih => exact fun v => ih v (h v)
  | write site r v k ih => exact ih h
  | poll site r busy k ih => exact fun v hv => ih (h v hv)

/-- Nothing is said of a program whose panics and values are all allowed. -/
theorem any (p : Prog Reg Site α) : p.Yields anyPanic fun _ => True := by
  induction p with
  | done a => exact trivial
  | panic e => exact trivial
  | read site r k ih => exact ih
  | write site r v k ih => exact ih
  | poll site r busy k ih => exact fun _ _ => ih

section

variable {site : Site} {r : Reg}

@[simp] theorem panic_iff {e : Panic} :
    (Prog.panic e : Prog Reg Site α).Yields panics post ↔ panics e := Iff.rfl

@[simp] theorem done_iff {a : α} : (Prog.done a : Prog Reg Site α).Yields panics post ↔ post a :=
  Iff.rfl

@[simp] theorem writeReg_iff {v : Word} {post : Unit → Prop} :
    (writeReg site r v).Yields panics post ↔ post () := Iff.rfl

@[simp] theorem writeReg_bind_iff {v : Word} {f : Unit → Prog Reg Site α} :
    (writeReg site r v >>= f).Yields panics post ↔ (f ()).Yields panics post := Iff.rfl

@[simp] theorem readReg_bind_iff {f : Word → Prog Reg Site α} :
    (readReg site r >>= f).Yields panics post ↔ ∀ v, (f v).Yields panics post := Iff.rfl

@[simp] theorem modifyReg_iff {g : Word → Word} {post : Unit → Prop} :
    (modifyReg site r g).Yields panics post ↔ Word → post () := Iff.rfl

@[simp] theorem modifyReg_bind_iff {g : Word → Word} {f : Unit → Prog Reg Site α} :
    (modifyReg site r g >>= f).Yields panics post ↔ Word → (f ()).Yields panics post := Iff.rfl

@[simp] theorem pollReg_iff {busy : Word → Bool} {post : Unit → Prop} :
    (pollReg site r busy).Yields panics post ↔ ∀ v, busy v = false → post () := Iff.rfl

@[simp] theorem pollReg_bind_iff {busy : Word → Bool} {f : Unit → Prog Reg Site α} :
    (pollReg site r busy >>= f).Yields panics post ↔
      ∀ v, busy v = false → (f ()).Yields panics post := Iff.rfl

end

/-- A busy-wait that ends has read a value that ends it. -/
theorem exists_ready {hw : Hw Reg σ} {r : Reg} {busy : Word → Bool} {n : Nat} {s : σ}
    (h : (hw.spin r busy n s).1 = true) : ∃ v, busy v = false := by
  induction n generalizing s with
  | zero => cases h
  | succ n ih =>
    cases hb : busy (hw.read r s).1 with
    | true =>
      rw [hw.spin_busy hb] at h
      exact ih h
    | false => exact ⟨_, hb⟩

/-- How a run on any hardware ends. -/
theorem sound {p : Prog Reg Site α} (h : p.Yields panics post) (hw : Hw Reg σ) (s : σ) :
    (∃ a, (exec hw p s).1 = .done a ∧ post a) ∨
      (∃ e, (exec hw p s).1 = .panicked e ∧ panics e) ∨ (exec hw p s).1 = .hung := by
  induction p generalizing s with
  | done a => exact Or.inl ⟨a, rfl, h⟩
  | panic e => exact Or.inr (Or.inl ⟨e, rfl, h⟩)
  | read site r k ih => exact ih _ (h _) _
  | write site r v k ih => exact ih h _
  | poll site r busy k ih =>
    simp only [exec]
    cases hspin : hw.spin r busy (hw.patience r s + 1) s with
    | mk ended s' =>
      cases ended with
      | true =>
        obtain ⟨v, hv⟩ := exists_ready (congrArg Prod.fst hspin)
        exact ih (h v hv) s'
      | false => exact Or.inr (Or.inr rfl)

end Prog.Yields

/-- What a monitored program yields. -/
theorem Prog.Obeys.yields {m : Monitor Reg Site S} {panics : Panic → S → Prop}
    {p : Prog Reg Site α} {post : α → S → Prop} {q : S} (h : p.Obeys m panics post q) :
    p.Yields (fun e => ∃ q', panics e q') fun a => ∃ q', post a q' := by
  induction p generalizing q with
  | done a => exact ⟨q, h⟩
  | panic e => exact ⟨q, h⟩
  | read site r k ih =>
    intro v
    obtain ⟨_, _, hk⟩ := h v
    exact ih v hk
  | write site r v k ih =>
    obtain ⟨_, _, hk⟩ := h
    exact ih hk
  | poll site r busy k ih =>
    intro v hv
    obtain ⟨_, _, hk⟩ := h.2 v hv
    exact ih hk

/-! ## Busy-waits that do not end -/

/-- The hardware as the registers of a driver show it. -/
def Hw.comap (hw : Hw Reg σ) (g : Reg₁ → Reg) : Hw Reg₁ σ where
  read r s := hw.read (g r) s
  write r v s := hw.write (g r) v s
  patience r s := hw.patience (g r) s

theorem Hw.spin_comap (hw : Hw Reg σ) (g : Reg₁ → Reg) (r : Reg₁) (busy : Word → Bool) (n : Nat)
    (s : σ) : (hw.comap g).spin r busy n s = hw.spin (g r) busy n s := by
  induction n generalizing s with
  | zero => rfl
  | succ n ih =>
    unfold Hw.spin
    rw [ih]
    rfl

/-- The busy-wait that a run does not get past. -/
def Prog.waitsAt (hw : Hw Reg σ) : Prog Reg Site α → σ → Option Site
  | .done _, _ => none
  | .panic _, _ => none
  | .read _ r k, s => (k (hw.read r s).1).waitsAt hw (hw.read r s).2
  | .write _ r v k, s => k.waitsAt hw (hw.write r v s)
  | .poll site r busy k, s =>
    match hw.spin r busy (hw.patience r s + 1) s with
    | (true, s') => k.waitsAt hw s'
    | (false, _) => some site

section Waits

variable {hw : Hw Reg σ} {p : Prog Reg Site α} {f : α → Prog Reg Site β} {s s' : σ} {site : Site}

/-- A run hangs exactly if it waits somewhere. -/
theorem hung_iff_waitsAt : (exec hw p s).1 = .hung ↔ ∃ site, p.waitsAt hw s = some site := by
  induction p generalizing s with
  | done a => exact iff_of_false (fun h => by cases h) fun ⟨_, h⟩ => by cases h
  | panic e => exact iff_of_false (fun h => by cases h) fun ⟨_, h⟩ => by cases h
  | read site r k ih => exact ih _
  | write site r v k ih => exact ih
  | poll site r busy k ih =>
    simp only [exec, Prog.waitsAt]
    cases hw.spin r busy (hw.patience r s + 1) s with
    | mk ended s' =>
      cases ended with
      | true => exact ih
      | false => exact iff_of_true rfl ⟨site, rfl⟩

theorem waitsAt_bind (h : p.waitsAt hw s = some site) : (p >>= f).waitsAt hw s = some site := by
  induction p generalizing s with
  | done a => cases h
  | panic e => cases h
  | read site' r k ih => exact ih _ h
  | write site' r v k ih => exact ih h
  | poll site' r busy k ih =>
    simp only [Prog.poll_bind, Prog.waitsAt] at h ⊢
    cases hspin : hw.spin r busy (hw.patience r s + 1) s with
    | mk ended s' =>
      rw [hspin] at h
      cases ended with
      | true => exact ih h
      | false => exact h

theorem waitsAt_bind_of {a : α} (h : exec hw p s = (.done a, s')) :
    (p >>= f).waitsAt hw s = (f a).waitsAt hw s' := by
  induction p generalizing s with
  | done b =>
    obtain ⟨hb, rfl⟩ := Prod.mk.inj h
    obtain rfl := Outcome.done.inj hb
    rfl
  | panic e => cases h
  | read site' r k ih => exact ih _ h
  | write site' r v k ih => exact ih h
  | poll site' r busy k ih =>
    simp only [Prog.poll_bind, Prog.waitsAt, exec] at h ⊢
    cases hspin : hw.spin r busy (hw.patience r s + 1) s with
    | mk ended s₁ =>
      rw [hspin] at h
      cases ended with
      | true => exact ih h
      | false => cases h

/-- A driver in a larger program waits where it would wait alone. -/
theorem waitsAt_embed (hw : Hw Reg σ) (g : Reg₁ → Reg) (f : Site₁ → Site)
    (p : Prog Reg₁ Site₁ α) (s : σ) :
    (p.embed g f).waitsAt hw s = (p.waitsAt (hw.comap g) s).map f := by
  induction p generalizing s with
  | done a => rfl
  | panic e => rfl
  | read site r k ih => exact ih _ _
  | write site r v k ih => exact ih _
  | poll site r busy k ih =>
    have hpatience : (hw.comap g).patience r s = hw.patience (g r) s := rfl
    simp only [Prog.embed, Prog.waitsAt, Hw.spin_comap, hpatience]
    cases hw.spin (g r) busy (hw.patience (g r) s + 1) s with
    | mk ended s' =>
      cases ended with
      | true => exact ih s'
      | false => rfl

end Waits

/-! ## On given hardware -/

/-- From a state with `inv`, a run ends in a value that meets `post` and a state with `inv`,
or in one of the busy-waits `waits`. -/
def Prog.Keeps (hw : Hw Reg σ) (waits : Site → Prop) (inv : σ → Prop) (p : Prog Reg Site α)
    (post : α → Prop) : Prop :=
  ∀ s, inv s → (∃ site, waits site ∧ p.waitsAt hw s = some site) ∨
    ∃ a s', exec hw p s = (.done a, s') ∧ post a ∧ inv s'

namespace Prog.Keeps

variable {hw : Hw Reg σ} {waits : Site → Prop} {inv : σ → Prop} {post : α → Prop}
  {post' : β → Prop}

theorem done {a : α} (h : post a) : (Prog.done a : Prog Reg Site α).Keeps hw waits inv post :=
  fun s hs => Or.inr ⟨a, s, rfl, h, hs⟩

theorem bind {p : Prog Reg Site α} {f : α → Prog Reg Site β} (h : p.Keeps hw waits inv post)
    (hf : ∀ a, post a → (f a).Keeps hw waits inv post') :
    (p >>= f).Keeps hw waits inv post' := by
  intro s hs
  rcases h s hs with ⟨site, hwaits, hsite⟩ | ⟨a, s', hdone, ha, hs'⟩
  · exact Or.inl ⟨site, hwaits, waitsAt_bind hsite⟩
  · rw [exec_bind_of hw hdone, waitsAt_bind_of hdone]
    exact hf a ha s' hs'

theorem forRange {n : Nat} {body : Nat → β → Prog Reg Site β} {b : β} (hb : post' b)
    (h : ∀ i < n, ∀ b, post' b → (body i b).Keeps hw waits inv post') :
    (Mmio.forRange n body b).Keeps hw waits inv post' := by
  induction n with
  | zero => exact done hb
  | succ n ih =>
    exact (ih fun i hi => h i (Nat.lt_succ_of_lt hi)).bind (h n (Nat.lt_succ_self n))

/-- A program without panics, when the invariant is about what it does not touch. -/
theorem of_yields {p : Prog Reg Site α} (h : p.Yields noPanic post)
    (hwaits : ∀ s site, p.waitsAt hw s = some site → waits site)
    (hframe : ∀ s, inv s → inv (exec hw p s).2) : p.Keeps hw waits inv post := by
  intro s hs
  rcases h.sound hw s with ⟨a, ha, hpost⟩ | ⟨_, _, hfalse⟩ | hhung
  · exact Or.inr ⟨a, _, exec_eq_done hw ha, hpost, hframe s hs⟩
  · exact hfalse.elim
  · obtain ⟨site, hsite⟩ := hung_iff_waitsAt.mp hhung
    exact Or.inl ⟨site, hwaits s site hsite, hsite⟩

end Prog.Keeps

-- the rules above are all that is used of the definition
attribute [irreducible] Prog.Yields

end Mmio
