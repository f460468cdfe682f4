/-!
# Builtin types and intrinsics

The types that the compiler knows and the functions and methods that it
provides are declared in a source text of their own, which a session reads
first unless its settings say otherwise.
-/

namespace TolkAnalysis

namespace Stubs

/-- The path under which the text is registered. -/
def path : String := "<builtin>/stubs.tolk"

/-- The lines of the text. -/
def lines : List String :=
  ["// Builtin types and intrinsics known to the compiler.",
   "// Loaded into every session unless disabled in the configuration.",
   "",
   "type int = builtin;",
   "type bool = builtin;",
   "type cell = builtin;",
   "type slice = builtin;",
   "type builder = builtin;",
   "type continuation = builtin;",
   "type tuple = builtin;",
   "type address = builtin;",
   "type coins = builtin;",
   "type void = builtin;",
   "type never = builtin;",
   "",
   "type intN = builtin;",
   "type uintN = builtin;",
   "type varintN = builtin;",
   "type varuintN = builtin;",
   "type bitsN = builtin;",
   "type bytesN = builtin;",
   "",
   "type map<K, V> = builtin;",
   "",
   "struct Cell<T> \x7b",
   "    tvmCell: cell",
   "\x7d",
   "",
   "fun T.fromCell(packedCell: cell): T builtin;",
   "fun T.fromSlice(rawSlice: slice): T builtin;",
   "fun T.toCell(self): Cell<T> builtin;",
   "fun T.estimatePackSize(): [int, int, int, int] builtin;",
   "",
   "fun Cell<T>.load(self): T builtin;",
   "fun Cell<T>.beginParse(self): slice builtin;",
   "",
   "fun beginCell(): builder builtin;",
   "fun createEmptyCell(): cell builtin;",
   "",
   "fun cell.beginParse(self): slice builtin;",
   "fun cell.hash(self): uint256 builtin;",
   "",
   "fun builder.endCell(self): cell builtin;",
   "fun builder.storeInt(mutate self, x: int, len: int): self builtin;",
   "fun builder.storeUint(mutate self, x: int, len: int): self builtin;",
   "fun builder.storeRef(mutate self, c: cell): self builtin;",
   "",
   "fun slice.loadInt(mutate self, len: int): int builtin;",
   "fun slice.loadUint(mutate self, len: int): int builtin;",
   "fun slice.loadRef(mutate self): cell builtin;",
   "fun slice.isEmpty(self): bool builtin;",
   "",
   "fun int.toString(self): slice builtin;"]

/-- The text; each line ends in a line feed. -/
def source : String := String.join (lines.map (· ++ "\n"))

end Stubs

end TolkAnalysis
