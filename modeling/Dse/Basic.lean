import Mathlib.Data.BitVec

/-!
# Machine types shared by the contract and the node
-/

namespace Dse

/-- A 256-bit word: `uint256` on chain, `U256` off chain. -/
abbrev U256 := BitVec 256

/-- `uint32` on chain, `u32` off chain. -/
abbrev U32 := BitVec 32

/-- A 20-byte account address. -/
abbrev Address := BitVec 160

end Dse
