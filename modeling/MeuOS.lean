import MeuOS.Mir.Mdce
import MeuOS.Mir.Combine
import MeuOS.Ld.Disjoint
import MeuOS.Compress.MxaRoundtrip
import MeuOS.Libc.MallocHeap
import MeuOS.Rtld.Tls
import MeuOS.Ar.Update
import MeuOS.Mir.Sdiv
import MeuOS.Utils.TarRoundtrip
import MeuOS.Mir.CopyPhi
import MeuOS.Sysroot.Integrity
import MeuOS.Sysroot.MsysRoundtrip
import MeuOS.Utils.DiffPatch
import MeuOS.Meow.Incremental
import MeuOS.Mcc.Switch
import MeuOS.Mcc.Convert
import MeuOS.Compress.InflateTruncated
import MeuOS.Compress.Keystream
import MeuOS.Compress.Lz77Short
import MeuOS.Compress.Zip
import MeuOS.Ar.Memory
import MeuOS.Ar.Index
import MeuOS.Compress.MxaMemory
import MeuOS.Compress.TansNorm
import MeuOS.Elf.Reader
import MeuOS.Ld.TlsDesc
import MeuOS.Ld.FillGot
import MeuOS.Rtld.DynamicSymbols
import MeuOS.Libc.Convert
import MeuOS.Libc.Regex
import MeuOS.As.Folding
import MeuOS.As.Difference
import MeuOS.Rtld.Dependencies
import MeuOS.As.LineTable
import MeuOS.As.StringText
import MeuOS.Libc.Search
import MeuOS.Libc.ScanInteger
import MeuOS.Msh.Redirection
import MeuOS.Msh.Parameters
import MeuOS.Msh.Errexit
import MeuOS.Msh.LoopControl
import MeuOS.Compress.Adler32
import MeuOS.Mir.RegSlots
import MeuOS.Compress.HuffmanDepth
