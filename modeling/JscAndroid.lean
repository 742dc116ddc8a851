import JscAndroid.Assembler.LogicalImmediate
import JscAndroid.BigInt.CompareDouble
import JscAndroid.BigInt.Divide
import JscAndroid.BigInt.Exponentiate
import JscAndroid.BigInt.StringToBigInt
import JscAndroid.BigInt.Truncate
import JscAndroid.Builtins.ArraySortStable
import JscAndroid.Bytecode.Operands
import JscAndroid.Dfg.BackwardsPropagation
import JscAndroid.Dfg.RangeSoundness
import JscAndroid.Dfg.SSAConstruction
import JscAndroid.HashMap.Iterators
import JscAndroid.Replace.FastPath
import JscAndroid.Structures.Flattening
import JscAndroid.Uri.PercentEscapes
import JscAndroid.Wtf.BitVectorRuns
import JscAndroid.Wtf.DateMath
import JscAndroid.Wtf.MetaAllocatorRuns
import JscAndroid.Wtf.StringSearch
import JscAndroid.Wtf.Utf8Lookup
import JscAndroid.Yarr.ClassParser
import JscAndroid.Yarr.ClassTables
import JscAndroid.Yarr.MatchBegin
