/-!
# NumScript.Text.Visible

Which characters have a form of their own on the page. Controls, format characters, separators other
than the plain space, private-use characters and noncharacters have none, and a message shows them
by their code. A code point to which no character is assigned is not in the table, the noncharacters
apart.
-/

namespace NumScript

/-- First and last code of each run of characters without a visible form, in ascending order. -/
def hiddenRanges : List (Nat × Nat) :=
  [(0x0000, 0x001F), (0x007F, 0x00A0), (0x00AD, 0x00AD), (0x0600, 0x0605), (0x061C, 0x061C),
   (0x06DD, 0x06DD), (0x070F, 0x070F), (0x0890, 0x0891), (0x08E2, 0x08E2), (0x1680, 0x1680),
   (0x180E, 0x180E), (0x2000, 0x200F), (0x2028, 0x202F), (0x205F, 0x2064), (0x2066, 0x206F),
   (0x3000, 0x3000), (0xE000, 0xF8FF), (0xFDD0, 0xFDEF), (0xFEFF, 0xFEFF), (0xFFF9, 0xFFFB),
   (0x110BD, 0x110BD), (0x110CD, 0x110CD), (0x13430, 0x13438), (0x1BCA0, 0x1BCA3),
   (0x1D173, 0x1D17A), (0xE0001, 0xE0001), (0xE0020, 0xE007F), (0xF0000, 0xFFFFD),
   (0x100000, 0x10FFFD)]

/-- The last two code points of every plane are noncharacters. -/
def endsPlane (code : Nat) : Bool := code % 0x10000 ≥ 0xFFFE

/-- Whether a character stands for itself in a message. -/
def isVisible (c : Char) : Bool :=
  !(endsPlane c.toNat || hiddenRanges.any fun (first, last) => first ≤ c.toNat && c.toNat ≤ last)

end NumScript
