import DaredevilSmall.App.Main
import DaredevilSmall.Can.Activation
import DaredevilSmall.Csec.She

/-!
# The system

The application beside the hardware: any ADC and clock generator, the CSEc with any engine,
and any CAN controller.

1. `exec_onAdc` and the others: a driver accesses its own peripheral and leaves the others
   as they are.
2. `SystemRun` is `init` and then `poll_sensor` any number of times. `AppRun` is such a run
   on the engine `she`, beside a CAN controller with its own activity.
-/

namespace App

open Mmio Data

/-- The values of the four sensors. -/
abbrev Readings := Vector Halfword Adc.channelCount

section

variable {σ ε κ α : Type}

/-- All peripherals, with any engine and any CAN controller. -/
def systemHw (board : Hw BoardReg σ) (E : Csec.Engine ε) (can : Hw Can.CanReg κ) :
    Hw AppReg (σ × Csec.Cse ε × κ) :=
  board.prod ((Csec.cseHw E).prod can)

/-- How a run of `ADC::read` ends. -/
def execRead (board : Hw BoardReg σ) (b : σ) : Outcome Readings × σ :=
  exec board (Adc.read.embed Sum.inl Site.adc : Prog BoardReg Site _) b

variable {board : Hw BoardReg σ} {E : Csec.Engine ε} {can : Hw Can.CanReg κ} {b : σ}
  {c : Csec.Cse ε} {k : κ}

/-! ## The drivers on the bus -/

namespace SystemLemmas

theorem exec_onAdc (p : Adc.Driver α) :
    exec (systemHw board E can) (onAdc p) (b, c, k) =
      ((exec board (p.embed Sum.inl Site.adc : Prog BoardReg Site α) b).1,
        (exec board (p.embed Sum.inl Site.adc : Prog BoardReg Site α) b).2, c, k) :=
  exec_onLeft board _ id _ b (c, k)

theorem exec_onScg (p : Scg.Driver α) :
    exec (systemHw board E can) (onScg p) (b, c, k) =
      ((exec board (p.embed Sum.inr Site.scg : Prog BoardReg Site α) b).1,
        (exec board (p.embed Sum.inr Site.scg : Prog BoardReg Site α) b).2, c, k) :=
  exec_onLeft board _ id _ b (c, k)

theorem exec_onCsec (p : Csec.Driver α) :
    exec (systemHw board E can) (onCsec p) (b, c, k) =
      ((exec (Csec.cseHw E) p c).1, b, (exec (Csec.cseHw E) p c).2, k) := by
  rw [onCsec, systemHw, exec_onRight, exec_onLeft]

theorem exec_onCan (p : Can.Driver α) :
    exec (systemHw board E can) (onCan p) (b, c, k) =
      ((exec can p k).1, b, c, (exec can p k).2) := by
  rw [onCan, systemHw, exec_onRight, exec_onRight]

/-- `ADC::read` in the application. -/
theorem exec_onAdc_read :
    exec (systemHw board E can) (onAdc Adc.read) (b, c, k) =
      ((execRead board b).1, (execRead board b).2, c, k) :=
  exec_onAdc Adc.read

/-- A call of the engine that the application goes on after. -/
theorem exec_onCsec_of {p : Csec.Driver α} {f : α → Program Unit} {a : α}
    (h : (exec (Csec.cseHw E) p c).1 = .done a) :
    exec (systemHw board E can) (onCsec p >>= f) (b, c, k) =
      exec (systemHw board E can) (f a) (b, (exec (Csec.cseHw E) p c).2, k) := by
  have hcall : exec (systemHw board E can) (onCsec p) (b, c, k) =
      (.done a, b, (exec (Csec.cseHw E) p c).2, k) := by
    rw [exec_onCsec, h]
  exact exec_bind_of _ hcall

/-- `init`, up to the two commands of the engine. -/
theorem exec_init_csec {resetScg : Scg.ScgReg → Word} {resetCan : Can.CanReg → Word}
    {key : Csec.Block} {s₀ s : σ × Csec.Cse ε × κ}
    (h : exec (systemHw board E can) (init resetScg resetCan key) s₀ = (.done (), s)) :
    ∃ b' k', exec can (Can.init resetCan) s₀.2.2 = (.done (), k') ∧
      exec (systemHw board E can) (onCsec Csec.initRng >>= fun r => unwrap r >>= fun _ =>
        onCsec (Csec.loadPlainkey key) >>= unwrap) (b', s₀.2.1, k') = (.done (), s) := by
  obtain ⟨b, c, k⟩ := s₀
  rw [init] at h
  obtain ⟨_, _, hscg, h₁⟩ := exec_bind_done _ h
  rw [exec_onScg] at hscg
  obtain ⟨_, rfl⟩ := Prod.mk.inj hscg
  obtain ⟨_, _, hadc, h₂⟩ := exec_bind_done _ h₁
  rw [exec_onAdc] at hadc
  obtain ⟨_, rfl⟩ := Prod.mk.inj hadc
  obtain ⟨_, _, hcan, h₃⟩ := exec_bind_done _ h₂
  rw [exec_onCan] at hcan
  obtain ⟨hinit, rfl⟩ := Prod.mk.inj hcan
  exact ⟨_, _, exec_eq_done _ hinit, h₃⟩

end SystemLemmas

/-! ## Runs -/

variable (board E can) in
/-- A run of `init` and then of `poll_sensor` any number of times, with the values
that `ADC::read` returned in each. -/
inductive SystemRun (resetScg : Scg.ScgReg → Word) (resetCan : Can.CanReg → Word)
    (key : Csec.Block) (s₀ : σ × Csec.Cse ε × κ) :
    σ × Csec.Cse ε × κ → List Readings → Prop
  | init {s : σ × Csec.Cse ε × κ} :
      exec (systemHw board E can) (init resetScg resetCan key) s₀ = (.done (), s) →
      SystemRun resetScg resetCan key s₀ s []
  | poll {s s' : σ × Csec.Cse ε × κ} {b : σ} {values : Readings} {readings : List Readings} :
      SystemRun resetScg resetCan key s₀ s readings → execRead board s.1 = (.done values, b) →
      exec (systemHw board E can) pollSensor s = (.done (), s') →
      SystemRun resetScg resetCan key s₀ s' (readings ++ [values])

end

/-! ## On the engine `she` -/

section

variable {σ : Type} (board : Hw BoardReg σ) (P : Csec.Primitives)
  (latency : Csec.She → Csec.Pram → Nat) (a : Can.Activity)

/-- The state of all peripherals. -/
abbrev AppState (σ : Type) := σ × Csec.Cse Csec.She × Nat × Can.Controller

/-- All peripherals: any ADC and clock generator, the engine, and the CAN
controller. -/
abbrev appHw : Hw AppReg (AppState σ) := systemHw board (Csec.she P latency) a.hw

/-- A run of `init` and then of `poll_sensor` any number of times. -/
abbrev AppRun (resetScg : Scg.ScgReg → Word) (resetCan : Can.CanReg → Word) (key : Csec.Block)
    (s₀ s : AppState σ) (readings : List Readings) : Prop :=
  SystemRun board (Csec.she P latency) a.hw resetScg resetCan key s₀ s readings

end

end App
