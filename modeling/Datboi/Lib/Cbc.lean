import Mathlib.Data.Fintype.EquivFin

/-!
# Cipher block chaining

Each block is mixed with the ciphertext block before it and then enciphered; the
first one is mixed with an initial value. Mixing undoes itself, as exclusive or does.
-/

namespace Cbc

variable {β : Type*}

/-- Chain-encrypt a list of blocks. `previous` starts as the initial value. -/
def encrypt (encipher : β → β) (mix : β → β → β) : β → List β → List β
  | _, [] => []
  | previous, block :: blocks =>
    encipher (mix block previous) ::
      encrypt encipher mix (encipher (mix block previous)) blocks

def decrypt (decipher : β → β) (mix : β → β → β) : β → List β → List β
  | _, [] => []
  | previous, block :: blocks =>
    mix (decipher block) previous :: decrypt decipher mix block blocks

variable {encipher decipher : β → β} {mix : β → β → β}

@[simp] theorem length_encrypt (iv : β) (blocks : List β) :
    (encrypt encipher mix iv blocks).length = blocks.length := by
  induction blocks generalizing iv with
  | nil => rfl
  | cons block blocks ih => rw [encrypt, List.length_cons, ih, List.length_cons]

@[simp] theorem length_decrypt (iv : β) (blocks : List β) :
    (decrypt decipher mix iv blocks).length = blocks.length := by
  induction blocks generalizing iv with
  | nil => rfl
  | cons block blocks ih => rw [decrypt, List.length_cons, ih, List.length_cons]

theorem decrypt_encrypt (hmix : ∀ a b, mix (mix a b) b = a)
    (hcipher : ∀ block, decipher (encipher block) = block) (iv : β) (blocks : List β) :
    decrypt decipher mix iv (encrypt encipher mix iv blocks) = blocks := by
  induction blocks generalizing iv with
  | nil => rfl
  | cons block blocks ih => rw [encrypt, decrypt, hcipher, hmix, ih]

theorem encrypt_decrypt (hmix : ∀ a b, mix (mix a b) b = a)
    (hcipher : ∀ block, encipher (decipher block) = block) (iv : β) (blocks : List β) :
    encrypt encipher mix iv (decrypt decipher mix iv blocks) = blocks := by
  induction blocks generalizing iv with
  | nil => rfl
  | cons block blocks ih => rw [decrypt, encrypt, hmix, hcipher, ih]

/-- Over finitely many blocks, a cipher that can be undone also undoes its inverse. -/
theorem encipher_decipher [Finite β] (hcipher : ∀ block, decipher (encipher block) = block)
    (block : β) : encipher (decipher block) = block := by
  have hsurjective : Function.Surjective encipher :=
    Finite.injective_iff_surjective.mp (Function.LeftInverse.injective hcipher)
  obtain ⟨plain, rfl⟩ := hsurjective block
  rw [hcipher]

end Cbc
