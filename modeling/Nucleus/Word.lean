/-!
# Machine words

The processor, the bus and every service argument work on 32-bit words. Arithmetic on them
wraps; a signed reading is two's complement. Two hexadecimal spellings are used in messages: the
shortest one, and one padded to eight digits.
-/
namespace Nucleus

/-- A machine word. -/
abbrev Word := UInt32

/-- Bytes in a word: consecutive words of a block are this far apart. -/
def wordBytes : Word := 4

/-- Shortest lower-case hexadecimal digits of a number. -/
def hexDigits (n : Nat) : String := String.ofList (Nat.toDigits 16 n)

/-- Shortest hexadecimal text of a word, such as `0x80000100`. -/
def hexText (w : Word) : String := "0x" ++ hexDigits w.toNat

/-- Hexadecimal text of a word with all eight digits, such as `0x0fffe0c0`. -/
def paddedHexText (w : Word) : String :=
  let digits := Nat.toDigits 16 w.toNat
  "0x" ++ String.ofList (List.replicate (8 - digits.length) '0' ++ digits)

/-- Product of two words, held at the largest word when it does not fit. -/
def saturatingMul (a b : Word) : Word :=
  UInt32.ofNat (min (a.toNat * b.toNat) (UInt32.size - 1))

theorem toNat_saturatingMul (a b : Word) :
    (saturatingMul a b).toNat = min (a.toNat * b.toNat) (UInt32.size - 1) := by
  have h : UInt32.size = 4294967296 := rfl
  simp only [saturatingMul, UInt32.toNat_ofNat']
  omega

/-- The word `i` places after `base`, modulo the address space. -/
def wordAt (base : Word) (i : Nat) : Word := base + wordBytes * UInt32.ofNat i

theorem toNat_wordAt {base : Word} {i : Nat} (h : base.toNat + 4 * i < UInt32.size) :
    (wordAt base i).toNat = base.toNat + 4 * i := by
  have hs : UInt32.size = 4294967296 := rfl
  simp only [wordAt, wordBytes, UInt32.toNat_add, UInt32.toNat_mul, UInt32.toNat_ofNat',
    UInt32.reduceToNat]
  omega

end Nucleus
