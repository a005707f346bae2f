import Xbtos.HeapFirstFit
import Xbtos.PhysMemOwners
import Xbtos.PhysMemReserved
import Xbtos.VfsInvariant
import Xbtos.VfsAtomic
import Xbtos.VfsGrammar
import Xbtos.KeyDelivery
import Xbtos.KeyMailbox
import Xbtos.ConsoleRefinement
import Xbtos.ConsoleUtf8
import Xbtos.LibcFormat
import Xbtos.LibcNumbers
import Xbtos.AppPermissions
import Xbtos.AppPaths
import Xbtos.ShellFiles
import Xbtos.ShellNames
import Xbtos.HistoryCursor
import Xbtos.LibcRoundTrip
import Xbtos.ShiftKeys
import Xbtos.HalTimer
import Xbtos.StringOrder
import Xbtos.ShellSession
import Xbtos.DisplayCursor
import Xbtos.InterruptRuns
import Xbtos.HeapAnswers
import Xbtos.LibcPrint
import Xbtos.LibcAtoi
import Xbtos.IrqRuns
import Xbtos.HalSleep
import Xbtos.PageOwners
import Xbtos.KeysUnheard
import Xbtos.KeyboardLines
