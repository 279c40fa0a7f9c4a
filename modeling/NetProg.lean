import NetProg.Calculator.KeepingUp
import NetProg.Reactor.Draining
import NetProg.Reactor.EndOfStream
import NetProg.Reactor.Lifetime
import NetProg.Reactor.LockStep
import NetProg.Reactor.Store
import NetProg.Reactor.Grammar
import NetProg.Reactor.Wedged
import NetProg.Reactor.Receiving
import NetProg.Reactor.Leftover
import NetProg.Lib.Slots
import NetProg.Multiplex.PollServer
import NetProg.Multiplex.SelectServer
import NetProg.Multiplex.Table
import NetProg.Multiplex.Scan
import NetProg.Multiplex.Monitoring
import NetProg.Multiplex.Agreement
import NetProg.Lib.Runs
import NetProg.TcpPool.ThreadPool
import NetProg.TcpPool.Tasks
import NetProg.Lib.Inet
import NetProg.Chat.UdpServer
import NetProg.Chat.Room
import NetProg.Reactor.Conserving
import NetProg.Reactor.Calculation
import NetProg.Reactor.Format
import NetProg.Calculator.Sending
import NetProg.Epoll.EpollServer
import NetProg.Epoll.Registration
import NetProg.Multiplex.Numbers
import NetProg.Http.Util
import NetProg.Lib.Path
import NetProg.Http.HttpServer
import NetProg.Http.Files
import NetProg.Http.Splitting
import NetProg.Calculator.Payloads
import NetProg.Reactor.Kernel
import NetProg.Reactor.AtRest
import NetProg.Reactor.Isolation
import NetProg.Calculator.TcpServer
import NetProg.Calculator.Threads
import NetProg.TcpPool.Transform
import NetProg.TcpPool.Serving
import NetProg.Http.Children
import NetProg.Lib.Stdio
import NetProg.Shell.UdpServer
import NetProg.Shell.Commands
import NetProg.Chat.UdpClient
import NetProg.Chat.Order
import NetProg.TcpPool.TcpClient
import NetProg.TcpPool.Turns
import NetProg.TcpPool.Silent
import NetProg.Calculator.CalClient
import NetProg.Calculator.LockStep
import NetProg.Multiplex.Fairness
import NetProg.Epoll.Stories
import NetProg.Shell.Sessions
import NetProg.Http.Pieces
import NetProg.Epoll.Agreement
