import Netkit.Foundations.Runs
import Netkit.Foundations.Memory
import Netkit.Foundations.Transducer
import Netkit.Foundations.Agreement
import Netkit.Telnet.Protocol
import Netkit.Telnet.Items
import Netkit.Telnet.Client.Options
import Netkit.Telnet.Client.Ring
import Netkit.Telnet.Client.RingQueue
import Netkit.Telnet.Client.Environ
import Netkit.Telnet.Client.Telsnd
import Netkit.Telnet.Client.Telrcv
import Netkit.Telnet.Daemon.Options
import Netkit.Telnet.Daemon.Suboption
import Netkit.Telnet.Daemon.NetBuf
import Netkit.Telnet.Daemon.Netclear
import Netkit.Telnet.Daemon.PtyInput
import Netkit.Telnet.Daemon.Telrcv
import Netkit.Telnet.OptionAgreement
import Netkit.Telnet.PeerRecord
import Netkit.Telnet.EnvironReply
import Netkit.Telnet.Upstream
import Netkit.Telnet.Downstream
import Netkit.Foundations.Chains
import Netkit.Routed.Address
import Netkit.Routed.External
import Netkit.Routed.Lookup
import Netkit.Routed.TriggeredUpdate
import Netkit.Foundations.Lockstep
import Netkit.Tftp.Buffers
import Netkit.Tftp.Netascii
import Netkit.Tftp.Sendfile
import Netkit.Tftp.Recvfile
import Netkit.Tftp.Transfer
import Netkit.Tftp.Download
import Netkit.Tftp.Upload
import Netkit.Talkd.Process
import Netkit.Talkd.Identity
import Netkit.Talkd.Rendezvous
import Netkit.Foundations.Expression
import Netkit.Rpcgen.Declaration
import Netkit.Rpcgen.Emit
import Netkit.Rpcgen.Routine
import Netkit.Rpcgen.InlineSize
import Netkit.Rpcgen.SizeCondition
import Netkit.Rpcgen.InlineStruct
import Netkit.Inetd.Configfile
import Netkit.Inetd.Servtab
import Netkit.Inetd.Main
import Netkit.Inetd.Accounting
import Netkit.Inetd.Operations
import Netkit.Inetd.Load
import Netkit.Inetd.Selection
import Netkit.Ftp.Ascii
import Netkit.Foundations.Lines
import Netkit.Ftpd.Login
import Netkit.Ftp.Getreply
import Netkit.Ftp.Framing
import Netkit.Ftpd.Dataconn
import Netkit.Ftpd.Transfers
import Netkit.Ftpd.Lexer
import Netkit.Ftpd.Grammar
import Netkit.Ftpd.Server
import Netkit.Ftpd.Pending
import Netkit.Ftpd.Scanner
import Netkit.Ftpd.Answers
import Netkit.Ftpd.OneReply
import Netkit.Ftpd.Sentences
import Netkit.Foundations.Decimal
import Netkit.Rcp.Records
import Netkit.Rcp.Source
import Netkit.Rcp.Sink
import Netkit.Rcp.Connection
import Netkit.Rcp.Lockstep
import Netkit.Foundations.Paths
import Netkit.Ftp.Initconn
import Netkit.Ftp.Names
import Netkit.Ftp.Mget
import Netkit.Foundations.Loops
import Netkit.Ftp.Ruserpass
import Netkit.Ftp.Netrc
import Netkit.Ping.Packets
import Netkit.Ping.Counts
import Netkit.Rusersd.Procedures
import Netkit.Rusersd.Replies
import Netkit.Finger.Persons
import Netkit.Finger.Nofinger
import Netkit.Bootparamd.Database
import Netkit.Bootparamd.Service
import Netkit.Foundations.Inband
import Netkit.Rlogin.Window
import Netkit.Rlogin.Protocol
import Netkit.Foundations.Lookahead
import Netkit.Telnet.Client.Reader
import Netkit.Telnet.Arrivals
import Netkit.Foundations.Following
import Netkit.Telnet.Slc
import Netkit.Telnet.SlcAgreement
import Netkit.Telnet.Client.Flush
import Netkit.Telnet.Client.RingText
import Netkit.Foundations.Keywords
import Netkit.Telnet.Client.Genget
import Netkit.Telnet.Framing
import Netkit.Telnet.Client.EnvironSend
import Netkit.Telnet.Client.SlcReply
import Netkit.Routed.DistanceVector
import Netkit.Routed.InterfaceRoute
import Netkit.Rcp.Confined
import Netkit.Foundations.Datagrams
import Netkit.Talk.Transact
import Netkit.Rcp.Disk
import Netkit.Rcp.Order
import Netkit.Rcp.Copying
import Netkit.Rcp.Install
import Netkit.Rcp.Copies
import Netkit.Foundations.Rates
import Netkit.Inetd.Spawning
import Netkit.Routed.Timers
import Netkit.Foundations.ByteOrder
import Netkit.Routed.Datagram
import Netkit.Routed.Requests
import Netkit.Tftp.Parsing
import Netkit.Inetd.Naming
import Netkit.Tftp.Access
import Netkit.Tftp.Resending
import Netkit.Foundations.Pieces
import Netkit.Inetd.LogicalLines
import Netkit.Foundations.Rings
import Netkit.Routed.Aging
import Netkit.Routed.Evolution
import Netkit.Routed.Expiry
import Netkit.Foundations.Walks
import Netkit.Routed.Network
import Netkit.Talkd.Links
import Netkit.Talkd.Responses
import Netkit.Talkd.Users
import Netkit.Foundations.Resolution
import Netkit.Rpcgen.Aliases
import Netkit.Foundations.Cuts
import Netkit.Rpcgen.Tokens
import Netkit.Foundations.Pushback
import Netkit.Rpcgen.Scanner
import Netkit.Rpcgen.Reading
import Netkit.Rpcgen.Buffers
import Netkit.Rpcgen.Patterns
import Netkit.Foundations.Queues
import Netkit.Timed.Messages
import Netkit.Timed.Readmsg
import Netkit.Timed.Waiting
import Netkit.Timed.Transport
import Netkit.Foundations.Clocks
import Netkit.Timed.Measure
import Netkit.Timed.Accuracy
import Netkit.Timed.Quit
import Netkit.Ftpd.Contents
import Netkit.Ftpd.Uploads
import Netkit.Ftpd.Getline
import Netkit.Ftpd.Urgent
import Netkit.Ftpd.Octal
import Netkit.Ftp.NetrcBuffers
import Netkit.Ftp.Makeargv
import Netkit.Ftp.Amatch
import Netkit.Ftp.Nmap
import Netkit.Ftp.Macdef
import Netkit.Ftp.Domacro
import Netkit.Foundations.Exchange
import Netkit.Ftp.Ftpglob
import Netkit.Ftp.Braces
import Netkit.Foundations.OnesComplement
import Netkit.Ping.Checksum
import Netkit.Ping.Data
import Netkit.Ping.Options
import Netkit.Telnet.Daemon.SlcReply
import Netkit.Talkd.Repairs
import Netkit.Ftp.Pswitch
import Netkit.Rlogin.Writer
import Netkit.Rlogin.Reader
import Netkit.Comsat.Preview
import Netkit.Talk.Display
import Netkit.Timed.Registration
import Netkit.Finger.Netfinger
import Netkit.Ftpd.Dirname
import Netkit.Tftp.Command
import Netkit.Timed.Networkdelta
import Netkit.Rwho.Spool
import Netkit.Rwho.Order
import Netkit.Rwho.Rwhod
import Netkit.Rpcgen.Names
