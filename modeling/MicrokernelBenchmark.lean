import MicrokernelBenchmark.IpcErrorPaths
import MicrokernelBenchmark.ProcessCtxSwitch
import MicrokernelBenchmark.ThreadCtxSwitch
import MicrokernelBenchmark.PubSubLoss
import MicrokernelBenchmark.PubSubPairing
import MicrokernelBenchmark.PeriodicLatency
import MicrokernelBenchmark.CpuLoadProcesses
import MicrokernelBenchmark.DeferredCancellation
import MicrokernelBenchmark.IpcShutdown
import MicrokernelBenchmark.BusyLoop
import MicrokernelBenchmark.QnxPriorityInversion
import MicrokernelBenchmark.LinuxPriorityInversion
import MicrokernelBenchmark.ShellWords
import MicrokernelBenchmark.UploadCommand
import MicrokernelBenchmark.DecimalText
import MicrokernelBenchmark.PortScan
import MicrokernelBenchmark.UbuntuPorts
import MicrokernelBenchmark.QnxPorts
import MicrokernelBenchmark.UploadFiles
import MicrokernelBenchmark.SleepWakeProcess
import MicrokernelBenchmark.SleepWakeCollection
import MicrokernelBenchmark.DisjointIntervals
import MicrokernelBenchmark.SleepJitter
import MicrokernelBenchmark.Mean
import MicrokernelBenchmark.Throughput
import MicrokernelBenchmark.LineScans
import MicrokernelBenchmark.AllocationBenchmarks
import MicrokernelBenchmark.FileTree
import MicrokernelBenchmark.FileMeta
import MicrokernelBenchmark.GetUuid
import MicrokernelBenchmark.ProcessFairness
import MicrokernelBenchmark.FairnessCollection
import MicrokernelBenchmark.FairnessRuns
import MicrokernelBenchmark.AllocatorThroughput
import MicrokernelBenchmark.DeterministicLatency
import MicrokernelBenchmark.IpcMqProgram
import MicrokernelBenchmark.SleepWakeThread
import MicrokernelBenchmark.ThreadFairness
import MicrokernelBenchmark.CallTrees
import MicrokernelBenchmark.NetworkAndSecurity
import MicrokernelBenchmark.SecurityReport
import MicrokernelBenchmark.LatencyPrograms
import MicrokernelBenchmark.PubSubPrograms
import MicrokernelBenchmark.CpuLoadRuns
import MicrokernelBenchmark.CpuLoadCalls
