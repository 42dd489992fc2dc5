import CWorkspace.AvlTree
import CWorkspace.AvlTree.Balanced
import CWorkspace.AvlTree.Runs
import CWorkspace.Base64
import CWorkspace.Base64.Length
import CWorkspace.Base64.RoundTrip
import CWorkspace.Bmp.Encode
import CWorkspace.Bmp.Format
import CWorkspace.Bmp.Lines
import CWorkspace.Bmp.Loaded
import CWorkspace.Bmp.Read
import CWorkspace.Bmp.Validate
import CWorkspace.Combinator
import CWorkspace.Dispatcher
import CWorkspace.Dispatcher.Overloads
import CWorkspace.Dispatcher.Toggles
import CWorkspace.HeapPermutation
import CWorkspace.HeapPermutation.Changes
import CWorkspace.Lib.BinaryFile
import CWorkspace.Lib.Block
import CWorkspace.Lib.Buf
import CWorkspace.Lib.Comp
import CWorkspace.Lib.Files
import CWorkspace.Lib.FirstMax
import CWorkspace.Lib.Glob
import CWorkspace.Lib.Heap
import CWorkspace.Lib.Iterators
import CWorkspace.Lib.Machine
import CWorkspace.Lib.Paths
import CWorkspace.Lib.Percent
import CWorkspace.Lib.Regex
import CWorkspace.Lib.RegexLang
import CWorkspace.Lib.ReplaceLoop
import CWorkspace.Lib.Rewrite
import CWorkspace.Lib.Runs
import CWorkspace.Lib.Seams
import CWorkspace.Lib.Shell
import CWorkspace.Lib.Spans
import CWorkspace.Lib.Streak
import CWorkspace.PQueue
import CWorkspace.PQueue.Operations
import CWorkspace.PQueue.Print
import CWorkspace.PQueue.Runs
import CWorkspace.PQueue.Sift
import CWorkspace.Pic.Answer
import CWorkspace.Pic.Areas
import CWorkspace.Pic.Bars
import CWorkspace.Pic.Blocks
import CWorkspace.Pic.Columns
import CWorkspace.Pic.Coordinate
import CWorkspace.Pic.Count
import CWorkspace.Pic.Demo
import CWorkspace.Pic.Images
import CWorkspace.Pic.Layout
import CWorkspace.Pic.Main
import CWorkspace.Pic.Marked
import CWorkspace.Pic.Normal
import CWorkspace.Pic.Placed
import CWorkspace.Pic.Rows
import CWorkspace.Pic.Scan
import CWorkspace.Pic.Units
import CWorkspace.Pipe
import CWorkspace.ReplaceAll
import CWorkspace.Str
import CWorkspace.Stub.Arity
import CWorkspace.Stub.Ctags
import CWorkspace.Stub.Gene
import CWorkspace.Stub.Keeps
import CWorkspace.Stub.Main
import CWorkspace.Stub.Marks
import CWorkspace.Stub.Params
import CWorkspace.Stub.Paths
import CWorkspace.Stub.Script
import CWorkspace.Stub.Select
import CWorkspace.Stub.ShellParams
import CWorkspace.Stub.SymbolList
import CWorkspace.Stub.Symbols
import CWorkspace.Stub.Terminates
import CWorkspace.Stub.TestFile
import CWorkspace.Stub.Types
