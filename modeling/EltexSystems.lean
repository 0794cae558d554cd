import EltexSystems.Proofs.Packet
import EltexSystems.Proofs.ClientTable
import EltexSystems.Proofs.TaxiLink
import EltexSystems.Proofs.EchoSession
import EltexSystems.Proofs.EchoHosts
import EltexSystems.Proofs.EchoMemory
import EltexSystems.Proofs.MqAdmission
import EltexSystems.Proofs.PosixExchange
import EltexSystems.Proofs.TaxiTable
import EltexSystems.Proofs.TaxiStdin
import EltexSystems.Proofs.TaxiPipe
import EltexSystems.Proofs.TaxiTask
import EltexSystems.Proofs.TaxiExpiry
import EltexSystems.Proofs.ShmLog
import EltexSystems.Proofs.DynBytes
import EltexSystems.Proofs.PhoneBooks
import EltexSystems.Proofs.Menu
import EltexSystems.Proofs.Ulitka
import EltexSystems.Proofs.ReverseOutput
import EltexSystems.Proofs.Bits
import EltexSystems.Proofs.CheckString
import EltexSystems.Proofs.Parser
import EltexSystems.Proofs.EchoWire
import EltexSystems.Proofs.ShmStartup
import EltexSystems.Proofs.Panels
import EltexSystems.Proofs.PanelTree
import EltexSystems.Proofs.OpenFile
import EltexSystems.Proofs.ProcVar
import EltexSystems.Proofs.ProcSysfs
import EltexSystems.Proofs.Mysh
import EltexSystems.Proofs.TaxiTok
import EltexSystems.Proofs.TaxiFamily
import EltexSystems.Proofs.TableHeap
import EltexSystems.Proofs.ProcessTree
import EltexSystems.Proofs.Handshake
import EltexSystems.Proofs.ShellSession
import EltexSystems.Proofs.Pipeline
import EltexSystems.Proofs.SysvExchange
import EltexSystems.Proofs.Signals
import EltexSystems.Proofs.Fifo
import EltexSystems.Proofs.ParentChild
