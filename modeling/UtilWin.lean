import UtilWin.Automation.Extraction
import UtilWin.Dirent.Enumeration
import UtilWin.Dirent.Reclen
import UtilWin.Readline.Surrogates
import UtilWin.Readline.Width
import UtilWin.Regex.Drive
import UtilWin.Regex.FnmatchReturns
import UtilWin.Regex.GlobMatches
import UtilWin.Regex.NameTest
import UtilWin.Regex.Reliance
import UtilWin.Regex.ReturnCode
import UtilWin.Win32u.Args
import UtilWin.Win32u.NameTruncation
import UtilWin.Win32u.ResultsKept
import UtilWin.Layout.Inverted
import UtilWin.Layout.Solved
import UtilWin.Layout.Turns
import UtilWin.Process.CommonSubset
import UtilWin.Process.DataPtr
import UtilWin.Process.Environment
import UtilWin.Process.EscapedMaps
import UtilWin.Process.FlagWord
import UtilWin.Process.InitNtptrs
import UtilWin.Process.LoadTimeData
import UtilWin.Process.MemoryRepair
import UtilWin.Process.PairOrNothing
import UtilWin.Process.ReplIat
import UtilWin.Process.SelfDelimiting
import UtilWin.Regex.Regexec
import UtilWin.Regex.WholeMatch
