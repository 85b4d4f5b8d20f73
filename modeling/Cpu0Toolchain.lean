import Cpu0Toolchain.Library.BlockImage
import Cpu0Toolchain.Elf2Hex.ObjectImage
import Cpu0Toolchain.Elf2Hex.Emitters
import Cpu0Toolchain.Elf2Hex.DataText
import Cpu0Toolchain.Elf2Hex.Bss
import Cpu0Toolchain.Elf2Hex.Sections
import Cpu0Toolchain.Library.EndianWord
import Cpu0Toolchain.Lld.Cpu0
import Cpu0Toolchain.Library.BoundedWriter
import Cpu0Toolchain.Printf.SanitizerPrintf
import Cpu0Toolchain.Printf.Text
import Cpu0Toolchain.Printf.Items
import Cpu0Toolchain.Printf.Truncation
import Cpu0Toolchain.Printf.Reference
import Cpu0Toolchain.Cpu0.Machine
import Cpu0Toolchain.Cpu0.SaveArea
import Cpu0Toolchain.Cpu0.Setjmp
import Cpu0Toolchain.Cpu0.Interrupt
import Cpu0Toolchain.Hex.Filterhex
import Cpu0Toolchain.Hex.HexToAsm
import Cpu0Toolchain.Hex.Pipeline
import Cpu0Toolchain.Hex.Coverage
import Cpu0Toolchain.ClangTools.VectorDsl
import Cpu0Toolchain.ClangTools.ValueSemantics
import Cpu0Toolchain.ClangTools.Rewriter
import Cpu0Toolchain.ClangTools.EnclosingFunction
import Cpu0Toolchain.Elf2Hex.SymbolTiling
import Cpu0Toolchain.Elf2Hex.Undecodable
import Cpu0Toolchain.Elf2Hex.DataAlignment
import Cpu0Toolchain.Library.PcRelative
import Cpu0Toolchain.Lld.Branch
import Cpu0Toolchain.Elf2Hex.BootJumps
import Cpu0Toolchain.Printf.LeftJustified
import Cpu0Toolchain.Library.LoopNest
import Cpu0Toolchain.Polly.Matmul
import Cpu0Toolchain.Polly.Matmul1loop
import Cpu0Toolchain.Library.Relaxation
import Cpu0Toolchain.Polly.Sor
import Cpu0Toolchain.Polly.SkewedSor
import Cpu0Toolchain.ClangTools.Rvv
import Cpu0Toolchain.Riscv.VectorAdd
import Cpu0Toolchain.ClangTools.ResultSizes
import Cpu0Toolchain.ClangTools.DirectCalls
import Cpu0Toolchain.Hex.BadLines
import Cpu0Toolchain.Hex.Objdump
import Cpu0Toolchain.Printf.StringPrecision
import Cpu0Toolchain.Printf.FormatCursor
import Cpu0Toolchain.Printf.NumBuffer
import Cpu0Toolchain.Printf.NumberCalls
import Cpu0Toolchain.CompilerRt.FpAdd
import Cpu0Toolchain.CompilerRt.FpMul
import Cpu0Toolchain.CompilerRt.FpCompare
import Cpu0Toolchain.CompilerRt.FpConvert
import Cpu0Toolchain.CompilerRt.FpExtend
import Cpu0Toolchain.Library.SignWord
import Cpu0Toolchain.CompilerRt.FpTrunc
import Cpu0Toolchain.CompilerRt.FpFix
import Cpu0Toolchain.CompilerRt.FpDiv
import Cpu0Toolchain.CompilerRt.IntDiv
import Cpu0Toolchain.CompilerRt.IntWords
import Cpu0Toolchain.CompilerRt.IntOverflow
import Cpu0Toolchain.CompilerRt.IntBits
import Cpu0Toolchain.Polly.Fusion
import Cpu0Toolchain.Printf.StdargOutput
import Cpu0Toolchain.Printf.StdargPrintf
import Cpu0Toolchain.Printf.StdargText
