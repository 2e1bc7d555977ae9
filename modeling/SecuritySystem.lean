import SecuritySystem.Lib.CMemory
import SecuritySystem.Lib.Linked
import SecuritySystem.Lib.FirstCome
import SecuritySystem.HashTable
import SecuritySystem.HashTableInv
import SecuritySystem.HashTableRun
import SecuritySystem.HashTableSafety
import SecuritySystem.Lib.Pieces
import SecuritySystem.Manager.Message
import SecuritySystem.Manager.Connection
import SecuritySystem.Manager.Protocol
import SecuritySystem.Manager.ProtocolSafety
import SecuritySystem.Lib.Iptables
import SecuritySystem.Firewall.Rules
import SecuritySystem.Firewall.Start
import SecuritySystem.Firewall.Cycles
import SecuritySystem.EventQueueSafety
import SecuritySystem.Lib.FileTree
import SecuritySystem.Backup.Handler
import SecuritySystem.Backup.HandlerSafety
import SecuritySystem.Backup.Scan
import SecuritySystem.Backup.ScanSafety
import SecuritySystem.Backup.ScanComplete
import SecuritySystem.Backup.ScanFree
import SecuritySystem.Backup.ScanOrder
import SecuritySystem.Backup.TableCount
import SecuritySystem.Backup.EventLoopSafety
import SecuritySystem.Backup.HandlerRun
import SecuritySystem.Backup.Watches
import SecuritySystem.Lib.Shell
import SecuritySystem.Backup.Command
import SecuritySystem.Backup.EventLoop
import SecuritySystem.Firewall.Frame
import SecuritySystem.Firewall.Payload
import SecuritySystem.Firewall.PayloadLayout
import SecuritySystem.Lib.Numerals
import SecuritySystem.Firewall.Packet
import SecuritySystem.Firewall.Network
import SecuritySystem.Lib.Inet
import SecuritySystem.Backup.Config
import SecuritySystem.Firewall.Config
import SecuritySystem.Config
import SecuritySystem.Backup.ReadEvents
import SecuritySystem.Backup.EventName
import SecuritySystem.Firewall.Threads
import SecuritySystem.Firewall.Join
import SecuritySystem.HashTableMemory
import SecuritySystem.LineScan
import SecuritySystem.ConfigScan
import SecuritySystem.LineCopy
import SecuritySystem.ReadConf
import SecuritySystem.Firewall.ConfigFrame
import SecuritySystem.Firewall.NetworkText
import SecuritySystem.Backup.Paths
import SecuritySystem.Lib.InetText
import SecuritySystem.Backup.ConfiguredBackup
import SecuritySystem.Backup.TextBounds
import SecuritySystem.Lib.Machine
import SecuritySystem.Backup.EventThread
import SecuritySystem.Backup.EventThreadSafety
import SecuritySystem.Backup.EventThreadStop
import SecuritySystem.Backup.EventThreadCopies
import SecuritySystem.Lib.Channel
import SecuritySystem.Manager.Exchange
import SecuritySystem.Manager.Session
import SecuritySystem.Manager.Progress
import SecuritySystem.Lib.ForkJoin
import SecuritySystem.Backup.ScanThread
import SecuritySystem.Backup.Service
import SecuritySystem.Backup.ServiceSafety
import SecuritySystem.Backup.ServiceTables
import SecuritySystem.Backup.ServiceStop
import SecuritySystem.Firewall.Capture
import SecuritySystem.Firewall.CaptureSafety
import SecuritySystem.Firewall.Counters
import SecuritySystem.Firewall.CountersExact
import SecuritySystem.Firewall.CountersNetwork
import SecuritySystem.Firewall.ServiceStop
import SecuritySystem.Backup.ScanToBackup
import SecuritySystem.HashTableBlocks
import SecuritySystem.ConfigText
