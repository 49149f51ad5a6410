import Mathlib.Data.List.Basic

/-!
# Chained block modes

A block mode turns a list of blocks into a list of blocks, one by one, and hands
a chaining value from each block to the next. `stream` is such a mode over any
step function. It can be interrupted after any block and resumed with the
chaining value (`stream_append`), and a mode whose step undoes that of another
one undoes it as a whole (`stream_inverse`).

CBC encryption and decryption are two such modes; `cbcDecrypt_cbcEncrypt` is
their round trip.
-/

namespace Crypto

variable {χ α β : Type}

/-- The blocks a mode puts out, and the chaining value after the last one. -/
def stream (step : χ → α → β × χ) : χ → List α → List β × χ
  | c, [] => ([], c)
  | c, a :: as => ((step c a).1 :: (stream step (step c a).2 as).1,
      (stream step (step c a).2 as).2)

theorem stream_append (step : χ → α → β × χ) (c : χ) (as bs : List α) :
    stream step c (as ++ bs) =
      ((stream step c as).1 ++ (stream step (stream step c as).2 bs).1,
        (stream step (stream step c as).2 bs).2) := by
  induction as generalizing c with
  | nil => rfl
  | cons a as ih => simp only [List.cons_append, stream, ih]

@[simp] theorem stream_length (step : χ → α → β × χ) (c : χ) (as : List α) :
    (stream step c as).1.length = as.length := by
  induction as generalizing c with
  | nil => rfl
  | cons a as ih => simp only [stream, List.length_cons, ih]

/-- A mode that undoes another one step by step undoes it as a whole. -/
theorem stream_inverse {step : χ → α → β × χ} {back : χ → β → α × χ}
    (h : ∀ c a, back c (step c a).1 = (a, (step c a).2)) (c : χ) (as : List α) :
    (stream back c (stream step c as).1).1 = as := by
  induction as generalizing c with
  | nil => rfl
  | cons a as ih => simp only [stream, h, ih]

/-! ## Cipher block chaining -/

variable {B : Type}

/-- The chaining value is the ciphertext block before. -/
def cbcEncryptStep (xor : B → B → B) (encrypt : B → B) (chain p : B) : B × B :=
  (encrypt (xor p chain), encrypt (xor p chain))

def cbcDecryptStep (xor : B → B → B) (decrypt : B → B) (chain c : B) : B × B :=
  (xor (decrypt c) chain, c)

def cbcEncrypt (xor : B → B → B) (encrypt : B → B) (iv : B) (ps : List B) : List B :=
  (stream (cbcEncryptStep xor encrypt) iv ps).1

def cbcDecrypt (xor : B → B → B) (decrypt : B → B) (iv : B) (cs : List B) : List B :=
  (stream (cbcDecryptStep xor decrypt) iv cs).1

/-- CBC decryption undoes CBC encryption under the same initialization vector. -/
theorem cbcDecrypt_cbcEncrypt {xor : B → B → B} {encrypt decrypt : B → B}
    (hxor : ∀ a b, xor (xor a b) b = a) (hcipher : ∀ b, decrypt (encrypt b) = b) (iv : B)
    (ps : List B) : cbcDecrypt xor decrypt iv (cbcEncrypt xor encrypt iv ps) = ps :=
  stream_inverse (fun c a => by simp only [cbcEncryptStep, cbcDecryptStep, hcipher, hxor]) iv ps

end Crypto
